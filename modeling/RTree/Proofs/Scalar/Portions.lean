import RTree.Proofs.Scalar.Rounding

/-!
A count times a number below one, cut down to a whole number, is not above the count, although the
count may be rounded up, and the product once more. What is below one falls short of it by half a
unit in the last place of any count at least, and no count is rounded up by more than that.
-/

namespace RTree

namespace Binary64

open Float.Model Float.Model.UnpackedFloat

/-- What shifts to the right leave of a mantissa: the quotient, the last bit shifted out, and
whether any before that was set. -/
theorem shiftRight_succ (m s : Nat) :
    (⟨m, false, false⟩ : ExtendedMantissa) >>> (s + 1) =
      ⟨m / 2 ^ (s + 1), m / 2 ^ s % 2 != 0, m % 2 ^ s != 0⟩ := by
  induction s with
  | zero => simp [HShiftRight.hShiftRight, Nat.repeat, ExtendedMantissa.shiftRightOne, Nat.mod_one]
  | succ s ih =>
    have hstep : (⟨m, false, false⟩ : ExtendedMantissa) >>> (s + 1 + 1) =
        ((⟨m, false, false⟩ : ExtendedMantissa) >>> (s + 1)).shiftRightOne := rfl
    have hmod : m % 2 ^ (s + 1) = m % 2 ^ s + 2 ^ s * (m / 2 ^ s % 2) := Nat.mod_pow_succ
    have hpos : 0 < 2 ^ s := Nat.two_pow_pos s
    rw [hstep, ih]
    unfold ExtendedMantissa.shiftRightOne
    congr 1
    · rw [Nat.div_div_eq_div_mul, ← Nat.pow_succ]
    · rw [hmod]
      rcases Nat.mod_two_eq_zero_or_one (m / 2 ^ s) with hbit | hbit
      · simp [hbit]
      · have hne : m % 2 ^ s + 2 ^ s ≠ 0 := by omega
        simp [hbit]

/-- A mantissa divided by `2 ^ s` and rounded, to the even one of two that are equally near. -/
def nearest (m s : Nat) : Nat :=
  ((⟨m, false, false⟩ : ExtendedMantissa) >>> s).roundedMantissa

/-- Rounding goes up by half of the divisor at most. -/
theorem nearest_bounds (m s : Nat) :
    m / 2 ^ s ≤ nearest m s ∧ 2 * (nearest m s * 2 ^ s) ≤ 2 * m + 2 ^ s := by
  cases s with
  | zero =>
    have hzero : nearest m 0 = m := rfl
    rw [hzero]
    omega
  | succ s =>
    have hmod : m % 2 ^ (s + 1) = m % 2 ^ s + 2 ^ s * (m / 2 ^ s % 2) := Nat.mod_pow_succ
    have hdiv := Nat.div_add_mod m (2 ^ (s + 1))
    have hpow : 2 ^ (s + 1) = 2 * 2 ^ s := by rw [Nat.pow_succ, Nat.mul_comm]
    unfold nearest
    rw [shiftRight_succ]
    generalize m / 2 ^ (s + 1) = q at *
    generalize m % 2 ^ s = r at *
    -- the quotient goes up only if the last bit shifted out is set
    have hround : ∀ up : Nat, up ≤ m / 2 ^ s % 2 → 2 * ((q + up) * 2 ^ (s + 1)) ≤
        2 * m + 2 ^ (s + 1) := by
      intro up hup
      have hmul : 2 ^ s * up ≤ 2 ^ s * (m / 2 ^ s % 2) := Nat.mul_le_mul_left _ hup
      have hone : 2 ^ s * up ≤ 2 ^ s * 1 := Nat.mul_le_mul_left _ (by omega)
      have hsplit : (q + up) * 2 ^ (s + 1) = 2 ^ (s + 1) * q + 2 * (2 ^ s * up) := by
        rw [hpow]
        ring
      omega
    rcases Nat.mod_two_eq_zero_or_one (m / 2 ^ s) with hbit | hbit
    · have hkeep : (⟨q, m / 2 ^ s % 2 != 0, r != 0⟩ : ExtendedMantissa).roundedMantissa = q := by
        rw [hbit]
        cases r <;> rfl
      rw [hkeep]
      exact ⟨le_refl q, hround 0 (Nat.zero_le _)⟩
    · obtain ⟨up, hup, heq⟩ : ∃ up ≤ 1,
          (⟨q, m / 2 ^ s % 2 != 0, r != 0⟩ : ExtendedMantissa).roundedMantissa = q + up := by
        rw [hbit]
        cases r with
        | zero => exact ⟨q % 2, by omega, rfl⟩
        | succ r => exact ⟨1, le_refl 1, rfl⟩
      rw [heq]
      exact ⟨Nat.le_add_right q up, hround up (by omega)⟩

/-- Rounding does not go past a multiple of the divisor. -/
theorem nearest_le {m s q : Nat} (h : m ≤ q * 2 ^ s) : nearest m s ≤ q := by
  have hup := (nearest_bounds m s).2
  have hpos : 0 < 2 ^ s := Nat.two_pow_pos s
  by_contra hlt
  have hmul : (q + 1) * 2 ^ s ≤ nearest m s * 2 ^ s := Nat.mul_le_mul_right _ (by omega)
  rw [Nat.succ_mul] at hmul
  omega

theorem nearest_mul (q s : Nat) : nearest (q * 2 ^ s) s = q := by
  apply le_antisymm (nearest_le (le_refl _))
  have hdown := (nearest_bounds (q * 2 ^ s) s).1
  rwa [Nat.mul_div_cancel _ (Nat.two_pow_pos s)] at hdown

/-- The value `q * 2 ^ t` with as many bits as there may be. -/
def settled (q : Nat) (t : Int) : UnpackedFloat :=
  if h : q = 0 then .zero .positive
  else if q < 2 ^ 53 then .finite .positive q t (Nat.pos_of_ne_zero h)
  else .finite .positive (2 ^ 52) (t + 1) (by decide)

theorem targetExponent_eq (m : Nat) (e : Int) :
    Format.binary64.targetExponent (totalExponent m e) = max (m.log2 + e - 52) (-1074) := by
  have hmin : Format.binary64.minExponent = -1074 := by decide
  have hbits : (Format.binary64.mantissaBits : Int) = 53 := by decide
  unfold Format.targetExponent totalExponent
  rw [hmin, hbits]
  congr 1
  omega

theorem shiftToTargetExponent_eq {m s : Nat} {e : Int}
    (h : max (m.log2 + e - 52) (-1074) - e = s ∨ max (m.log2 + e - 52) (-1074) ≤ e ∧ s = 0) :
    shiftToTargetExponent .binary64 m e .exact =
      ((⟨m, false, false⟩ : ExtendedMantissa) >>> s, e + s) := by
  unfold shiftToTargetExponent shiftToExponent
  rw [targetExponent_eq]
  have hs : (max (m.log2 + e - 52 : Int) (-1074) - e).toNat = s := by omega
  simp only [hs]
  rfl

theorem log2_le {m k : Nat} (h : m < 2 ^ (k + 1)) : m.log2 ≤ k := by
  by_cases hm : m = 0
  · subst hm
    exact Nat.zero_le k
  · have := (Nat.log2_lt hm).mpr h
    omega

section Target

variable {m s : Nat} {e : Int}

theorem nearest_le_of_target (h : max (m.log2 + e - 52) (-1074) = e + s) :
    nearest m s ≤ 2 ^ 53 := by
  apply nearest_le
  rw [← Nat.pow_add]
  have hlt : m < 2 ^ (m.log2 + 1) := Nat.lt_log2_self
  exact hlt.le.trans (Nat.pow_le_pow_right (by decide) (by omega))

/-- There are 53 bits left, unless the exponent is the least. -/
theorem le_nearest_of_target (hm : 0 < m) (h : max (m.log2 + e - 52) (-1074) = e + s) :
    2 ^ 52 ≤ nearest m s ∨ e + s = -1074 := by
  by_cases hmin : e + s = -1074
  · exact .inr hmin
  · refine .inl (le_trans ?_ (nearest_bounds m s).1)
    rw [Nat.le_div_iff_mul_le (Nat.two_pow_pos s), ← Nat.pow_add]
    exact (Nat.pow_le_pow_right (by decide) (by omega)).trans (Nat.log2_self_le hm.ne')

/-- A value is rounded to 53 bits, unless that makes its exponent too small. -/
theorem roundWithAccuracy_eq (h : max (m.log2 + e - 52) (-1074) = e + s) :
    roundWithAccuracy .binary64 .positive m e .exact = settled (nearest m s) (e + s) := by
  have hmost := nearest_le_of_target h
  have hmin : (-1074 : Int) ≤ e + s := by omega
  unfold roundWithAccuracy
  rw [shiftToTargetExponent_eq (s := s) (.inl (by omega))]
  dsimp only
  change (match shiftToTargetExponent .binary64 (nearest m s) (e + s) .exact with
    | (f, t) => if h : f.mantissa = 0 then UnpackedFloat.zero .positive
        else .finite .positive f.mantissa t (Nat.pos_of_ne_zero h)) = _
  generalize nearest m s = q at *
  by_cases hq : q < 2 ^ 53
  · have hlog : q.log2 ≤ 52 := log2_le hq
    rw [shiftToTargetExponent_eq (s := 0) (.inr ⟨by omega, rfl⟩)]
    unfold settled
    simp only [if_pos hq, Nat.cast_zero, add_zero]
    rfl
  · obtain rfl : q = 2 ^ 53 := by omega
    have hlog : (2 ^ 53 : Nat).log2 = 53 := Nat.log2_two_pow
    rw [shiftToTargetExponent_eq (s := 1) (.inl (by rw [hlog]; omega))]
    rfl

end Target

structure Representable (m : Nat) (e : Int) : Prop where
  lt : m < 2 ^ 53
  normal : 2 ^ 52 ≤ m ∨ e = -1074
  least : -1074 ≤ e
  most : e ≤ 971

theorem toNat_one_append (v : BitVec 52) : (1#1 ++ v).toNat = 2 ^ 52 + v.toNat := by
  rw [BitVec.toNat_append, ← Nat.shiftLeft_add_eq_or_of_lt v.isLt]
  simp [Nat.shiftLeft_eq]

theorem representable_unpack {b : BitVec Format.binary64.numBits} {s : Sign} {m : Nat} {e : Int}
    {hm : 0 < m} (h : UnpackedFloat.unpack .binary64 b = .finite s m e hm) :
    Representable m e := by
  have hexponent : (unpackExponent b).toNat < 2048 := (unpackExponent b).isLt
  have hmantissa : (unpackMantissa b).toNat < 2 ^ 52 := (unpackMantissa b).isLt
  have hbias : ((Format.binary64.exponentBias : Nat) : Int) = 1023 := rfl
  unfold UnpackedFloat.unpack at h
  dsimp only at h
  split at h
  · split at h <;> cases h
  · next hfinite =>
    split at h
    · next hzero =>
      split at h
      · cases h
      · cases h
        have hz : (unpackExponent b).toNat = 0 := by rw [hzero]; rfl
        rw [hz, hbias]
        exact ⟨by omega, .inr rfl, by decide, by decide⟩
    · next hzero =>
      cases h
      have hne : (unpackExponent b).toNat ≠ 0 := fun hz => hzero (BitVec.eq_of_toNat_eq hz)
      have hne' : (unpackExponent b).toNat ≠ 2047 := fun hz => hfinite (BitVec.eq_of_toNat_eq hz)
      have happ := toNat_one_append (unpackMantissa b)
      rw [hbias]
      exact ⟨by omega, .inl (by omega), by omega, by omega⟩

theorem exponentBias_eq : ((Format.binary64.exponentBias : Nat) : Int) = 1023 := rfl

theorem biased_eq (e : Int) :
    (e + Format.binary64.exponentBias + (52 : Nat)).toNat = (e + 1075).toNat := by
  rw [exponentBias_eq]
  omega

/-- The leading bit of the mantissa is not stored, but comes back. -/
theorem repack_normal {m : Nat} {e : Int} (hm : 0 < m) (h : Representable m e)
    (hnormal : 2 ^ 52 ≤ m) : repack (.finite .positive m e hm) = .finite .positive m e hm := by
  obtain ⟨hlt, -, hleast, hmost⟩ := h
  have hlog : m.log2 = 52 := (Nat.log2_eq_iff hm.ne').mpr ⟨hnormal, hlt⟩
  have hsign : Sign.ofBitVec Sign.positive.toBitVec = .positive := rfl
  have hbits : 52 + 1 = Format.binary64.mantissaBits := rfl
  have hexponent : (BitVec.ofNat 11 (e + 1075).toNat).toNat = (e + 1075).toNat := by
    rw [BitVec.toNat_ofNat, Nat.mod_eq_of_lt (by omega)]
  have hmantissa : (1#1 ++ BitVec.ofNat 52 m).toNat = m := by
    rw [toNat_one_append, BitVec.toNat_ofNat]
    omega
  have hfinite : BitVec.ofNat 11 (e + 1075).toNat ≠ -1#11 := by
    intro heq
    have hall : (e + 1075).toNat = 2047 := hexponent.symm.trans (congrArg BitVec.toNat heq)
    omega
  have hpos : BitVec.ofNat 11 (e + 1075).toNat ≠ 0#11 := by
    intro heq
    have hzero : (e + 1075).toNat = 0 := hexponent.symm.trans (congrArg BitVec.toNat heq)
    omega
  unfold repack UnpackedFloat.pack
  simp only [biased_eq, hlog]
  rw [if_neg (by omega), if_pos hbits]
  unfold UnpackedFloat.unpack
  simp only [unpackMantissa_packComponents, unpackExponent_packComponents,
    unpackSign_packComponents, hsign, if_neg hfinite, if_neg hpos]
  congr 1
  rw [hexponent, exponentBias_eq]
  omega

/-- A short mantissa goes with the least exponent. -/
theorem repack_subnormal {m : Nat} (hm : 0 < m) (hlt : m < 2 ^ 52) :
    repack (.finite .positive m (-1074) hm) = .finite .positive m (-1074) hm := by
  have hlog : m.log2 + 1 ≠ Format.binary64.mantissaBits := by
    have hbits : Format.binary64.mantissaBits = 53 := rfl
    have hfew := (Nat.log2_lt hm.ne').mpr hlt
    omega
  have hsign : Sign.ofBitVec Sign.positive.toBitVec = .positive := rfl
  have hmantissa : (BitVec.ofNat 52 m).toNat = m := by
    rw [BitVec.toNat_ofNat, Nat.mod_eq_of_lt hlt]
  have hne : BitVec.ofNat 52 m ≠ 0#52 := by
    intro heq
    have hzero : m = 0 := hmantissa.symm.trans (congrArg BitVec.toNat heq)
    omega
  have hfinite : (0#11 : BitVec 11) ≠ -1#11 := by decide
  unfold repack UnpackedFloat.pack
  simp only [biased_eq]
  rw [if_neg (by decide), if_neg hlog]
  unfold UnpackedFloat.unpack
  simp only [unpackMantissa_packComponents, unpackExponent_packComponents,
    unpackSign_packComponents, hsign, if_neg hfinite, if_true, dif_neg hne]
  congr 1

/-- Packing keeps what can be packed. -/
theorem repack_finite {m : Nat} {e : Int} (hm : 0 < m) (h : Representable m e) :
    repack (.finite .positive m e hm) = .finite .positive m e hm := by
  by_cases hnormal : 2 ^ 52 ≤ m
  · exact repack_normal hm h hnormal
  · obtain rfl := h.normal.resolve_left hnormal
    exact repack_subnormal hm (by omega)

theorem unpack_ofNat_of_lt {n : Nat} (h : n < 2 ^ 53) :
    (Float.ofNat n).toModel.unpack =
      repack (UnpackedFloat.mul .binary64 (repack (UnpackedFloat.ofNat .binary64 n))
        (.finite .positive (2 ^ 52) (-52) (by decide))) := by
  have hone : UnpackedFloat.unpack .binary64 (UnpackedFloat.pack .binary64
      (UnpackedFloat.unpack .binary64 (0x3FF0000000000000 : UInt64).toBitVec)) =
        .finite .positive (2 ^ 52) (-52) (by decide) := rfl
  have hnat : n.toUInt64.toNat = n := Nat.mod_eq_of_lt (by omega)
  have hfloat : Float.ofNat n = n.toUInt64.toFloat * Float.ofBits 0x3FF0000000000000 := by
    show Float.ofScientific n false 0 = _
    unfold Float.ofScientific
    rw [dif_pos ⟨h, by decide⟩]
    rfl
  rw [hfloat]
  show repack (UnpackedFloat.mul .binary64
    (repack (UnpackedFloat.ofNat .binary64 n.toUInt64.toNat)) (UnpackedFloat.unpack .binary64
      (UnpackedFloat.pack .binary64
        (UnpackedFloat.unpack .binary64 (0x3FF0000000000000 : UInt64).toBitVec)))) = _
  rw [hone, hnat]

theorem unpack_ofNat_of_le {n : Nat} (h : 2 ^ 53 ≤ n) :
    (Float.ofNat n).toModel.unpack =
      repack (roundWithAccuracy .binary64 .positive (n * 2 ^ 53) (-53) .exact) := by
  have hfloat : Float.ofNat n = Float.ofModel (Float.Model.ofScientific n 0) := by
    show Float.ofScientific n false 0 = _
    unfold Float.ofScientific
    rw [dif_neg (by omega)]
    rfl
  rw [hfloat]
  show repack (UnpackedFloat.ofScientific .binary64 n 0) = _
  congr 1
  have hbits : Format.binary64.mantissaBits = 53 := rfl
  have hexp : Format.binary64.exponentBits = 11 := rfl
  unfold UnpackedFloat.ofScientific
  rw [dif_neg (by omega), if_neg (by decide), if_neg (by rw [hexp]; omega), if_pos (le_refl 0)]
  show roundWithAccuracy .binary64 .positive (n <<< 53 * 1) (-53 + 0) .exact = _
  rw [Nat.shiftLeft_eq, Nat.mul_one]
  rfl

theorem settled_of_lt {q : Nat} {t : Int} (hpos : 0 < q) (hlt : q < 2 ^ 53) :
    settled q t = .finite .positive q t hpos := by
  unfold settled
  rw [dif_neg hpos.ne', if_pos hlt]

theorem log2_mul_two_pow {m : Nat} (hm : 0 < m) (k : Nat) : (m * 2 ^ k).log2 = m.log2 + k := by
  rw [Nat.log2_eq_iff (Nat.mul_pos hm (Nat.two_pow_pos k)).ne']
  have hlow : 2 ^ m.log2 ≤ m := Nat.log2_self_le hm.ne'
  have hhigh : m < 2 ^ (m.log2 + 1) := Nat.lt_log2_self
  constructor
  · rw [Nat.pow_add]
    exact Nat.mul_le_mul_right _ hlow
  · rw [Nat.add_right_comm, Nat.pow_add]
    exact Nat.mul_lt_mul_of_pos_right hhigh (Nat.two_pow_pos k)

/-- What has 53 bits apart from zeros at the end is not changed by rounding. -/
theorem roundWithAccuracy_mul {q s : Nat} {e : Int} (hlow : 2 ^ 52 ≤ q) (hhigh : q < 2 ^ 53)
    (he : -1074 ≤ e + s) :
    roundWithAccuracy .binary64 .positive (q * 2 ^ s) e .exact =
      .finite .positive q (e + s) (by omega) := by
  have hlog : (q * 2 ^ s).log2 = 52 + s := by
    rw [log2_mul_two_pow (by omega), (Nat.log2_eq_iff (by omega)).mpr ⟨hlow, hhigh⟩]
  rw [roundWithAccuracy_eq (s := s) (by rw [hlog]; omega), nearest_mul, settled_of_lt]
  exact hhigh

/-- Counts below `2 ^ 53` are exact. -/
theorem ofNat_of_lt {n j : Nat} (h0 : 0 < n) (hlow : 2 ^ 52 ≤ n * 2 ^ j)
    (hhigh : n * 2 ^ j < 2 ^ 53) :
    (Float.ofNat n).toModel.unpack = .finite .positive (n * 2 ^ j) (-j) (by omega) := by
  have hlog : n.log2 + j = 52 := by
    rw [← log2_mul_two_pow h0]
    exact (Nat.log2_eq_iff (by omega)).mpr ⟨hlow, hhigh⟩
  have hpos : 0 < n * 2 ^ j := by omega
  have hrep : Representable (n * 2 ^ j) (-j) := ⟨hhigh, .inl hlow, by omega, by omega⟩
  have hlt : n < 2 ^ 53 := (Nat.le_mul_of_pos_right n (Nat.two_pow_pos j)).trans_lt hhigh
  have hcount : UnpackedFloat.ofNat .binary64 n = .finite .positive (n * 2 ^ j) (-j) hpos := by
    have hround :
        UnpackedFloat.ofNat .binary64 n = UnpackedFloat.round .binary64 .positive n 0 := by
      have hgt : compare (n : Int) 0 = .gt := compare_gt_iff_gt.mpr (by omega)
      unfold UnpackedFloat.ofNat UnpackedFloat.ofInt UnpackedFloat.normalize
      rw [hgt]
      rfl
    have hdrop : (0 - max (n.log2 + 0 - 52 : Int) (-1074)).toNat = j := by omega
    rw [hround]
    unfold UnpackedFloat.round decreaseExponent
    simp only [targetExponent_eq, hdrop, Nat.shiftLeft_eq]
    have hexact := roundWithAccuracy_mul (s := 0) (e := 0 - j) hlow hhigh (by omega)
    rw [Nat.pow_zero, Nat.mul_one] at hexact
    rw [hexact]
    congr 1
    omega
  rw [unpack_ofNat_of_lt hlt, hcount, repack_finite hpos hrep]
  have hmul := roundWithAccuracy_mul (s := 52) (e := -j + -52) hlow hhigh (by omega)
  show repack (roundWithAccuracy .binary64 .positive (n * 2 ^ j * 2 ^ 52) (-j + -52) .exact) = _
  rw [hmul, ← repack_finite hpos hrep]
  congr 2
  omega

/-- A count is rounded up by half a unit in the last place at most. -/
structure Counted (n m : Nat) (e : Int) : Prop where
  representable : Representable m e
  normal : 2 ^ 52 ≤ m
  le_exponent : -52 ≤ e
  exponent_le : e ≤ 12
  near : (2 * m - 1 : ℚ) * 2 ^ (e - 1) ≤ n

theorem counted_settled {n s q : Nat} (hpos : 0 < s) (hs : s ≤ 64) (hq : 2 ^ 52 ≤ q)
    (hmost : q ≤ 2 ^ 53) (hnear : 2 * (q * 2 ^ s) ≤ 2 * (n * 2 ^ 53) + 2 ^ s) :
    ∃ m e, ∃ hm : 0 < m, settled q (-53 + s) = .finite .positive m e hm ∧ Counted n m e := by
  have hvalue : (2 * q - 1 : ℚ) * 2 ^ (-53 + s - 1 : Int) ≤ n := by
    have hcast : 2 * ((q : ℚ) * 2 ^ s) ≤ 2 * (n * 2 ^ 53) + 2 ^ s := by exact_mod_cast hnear
    have hpow : (2 : ℚ) ^ (-53 + s - 1 : Int) = 2 ^ s / 2 ^ 54 := by
      rw [show (-53 + s - 1 : Int) = (s : Int) - (54 : Nat) by omega, zpow_sub₀ (by norm_num),
        zpow_natCast, zpow_natCast]
    rw [hpow, mul_div_assoc', div_le_iff₀ (by positivity)]
    linarith
  by_cases hlt : q < 2 ^ 53
  · refine ⟨q, -53 + s, by omega, settled_of_lt (by omega) hlt, ?_⟩
    exact ⟨⟨hlt, .inl hq, by omega, by omega⟩, hq, by omega, by omega, hvalue⟩
  · obtain rfl : q = 2 ^ 53 := by omega
    refine ⟨2 ^ 52, -53 + s + 1, by decide, rfl, ?_⟩
    refine ⟨⟨by decide, .inl (le_refl _), by omega, by omega⟩, le_refl _, by omega, by omega, ?_⟩
    refine le_trans ?_ hvalue
    rw [show (-53 + s + 1 - 1 : Int) = (-53 + s - 1) + 1 by omega, zpow_add_one₀ (by norm_num)]
    have hpos : (0 : ℚ) < 2 ^ (-53 + s - 1 : Int) := by positivity
    push_cast
    nlinarith

theorem exists_counted {n : Nat} (h0 : 0 < n) (h1 : n < 2 ^ 64) :
    ∃ m e, ∃ hm : 0 < m, (Float.ofNat n).toModel.unpack = .finite .positive m e hm ∧
      Counted n m e := by
  by_cases hlt : n < 2 ^ 53
  · have hfew : n.log2 ≤ 52 := log2_le hlt
    obtain ⟨j, hj⟩ := Nat.exists_eq_add_of_le hfew
    have hlog : (n * 2 ^ j).log2 = 52 := by rw [log2_mul_two_pow h0, hj]
    have hne : n * 2 ^ j ≠ 0 := (Nat.mul_pos h0 (Nat.two_pow_pos j)).ne'
    obtain ⟨hlow, hhigh⟩ := (Nat.log2_eq_iff hne).mp hlog
    refine ⟨n * 2 ^ j, -j, by omega, ofNat_of_lt h0 hlow hhigh, ?_⟩
    refine ⟨⟨hhigh, .inl hlow, by omega, by omega⟩, hlow, by omega, by omega, ?_⟩
    have hpow : (2 : ℚ) ^ (-j - 1 : Int) * 2 ^ j * 2 = 1 := by
      rw [← zpow_natCast, ← zpow_add₀ (by norm_num), ← zpow_add_one₀ (by norm_num),
        show (-j - 1 + j + 1 : Int) = 0 by omega, zpow_zero]
    have hpos : (0 : ℚ) < 2 ^ (-j - 1 : Int) := by positivity
    push_cast
    calc (2 * (n * 2 ^ j) - 1 : ℚ) * 2 ^ (-j - 1 : Int)
        = n * (2 ^ (-j - 1 : Int) * 2 ^ j * 2) - 2 ^ (-j - 1 : Int) := by ring
      _ ≤ n := by rw [hpow]; linarith
  · have hlog : (n * 2 ^ 53).log2 = n.log2 + 53 := log2_mul_two_pow h0 53
    have hmany : n.log2 ≤ 63 := log2_le h1
    have hlow : 53 ≤ n.log2 := (Nat.le_log2 h0.ne').mpr (by omega)
    have htarget : max ((n * 2 ^ 53).log2 + -53 - 52 : Int) (-1074) = -53 + (n.log2 + 1 : Nat) := by
      rw [hlog]
      omega
    have hpos : 0 < n * 2 ^ 53 := Nat.mul_pos h0 (Nat.two_pow_pos 53)
    have hq := (le_nearest_of_target hpos htarget).resolve_right (by omega)
    obtain ⟨m, e, hm, hsettled, hcounted⟩ := counted_settled (by omega) (by omega) hq
      (nearest_le_of_target htarget) (nearest_bounds (n * 2 ^ 53) (n.log2 + 1)).2
    refine ⟨m, e, hm, ?_, hcounted⟩
    rw [unpack_ofNat_of_le (by omega), roundWithAccuracy_eq htarget, hsettled,
      repack_finite hm hcounted.representable]

/-- What is below one has a small exponent. -/
theorem exists_portion {x : Float} (h0 : Scalar.zero < x) (h1 : x < Scalar.one) :
    ∃ m e, ∃ hm : 0 < m, x.toModel.unpack = .finite .positive m e hm ∧ Representable m e ∧
      e < -52 := by
  have hone : rankOf Scalar.one = some (toLex (1, toLex (-52, 2 ^ 52))) := by decide +kernel
  obtain ⟨r, r', hr, hr', hlt⟩ := lt_iff.mp h1
  obtain rfl := Option.some.inj (hone.symm.trans hr')
  obtain ⟨q, q', hq, hq', hpos⟩ := lt_iff.mp h0
  obtain rfl := Option.some.inj (rankOf_zero.symm.trans hq)
  obtain rfl := Option.some.inj (hr.symm.trans hq')
  have hu := hr
  unfold rankOf at hu
  generalize hx : x.toModel.unpack = u at hu
  rcases u with (_ | _) | _ | s | ⟨(_ | _), m, e, hm⟩ <;> cases hu
  · simp [Prod.Lex.toLex_lt_toLex] at hpos
  · simp [Prod.Lex.toLex_lt_toLex] at hlt
  · exact absurd hpos (lt_irrefl _)
  · simp [Prod.Lex.toLex_lt_toLex] at hpos
  · have hrep := representable_unpack hx
    refine ⟨m, e, hm, rfl, hrep, ?_⟩
    have hless : e < -52 ∨ e = -52 ∧ (m : Int) < 2 ^ 52 := by
      simpa [Prod.Lex.toLex_lt_toLex] using hlt
    rcases hless with hless | ⟨rfl, hfew⟩
    · exact hless
    · rcases hrep.normal with hnormal | hnormal <;> omega

/-- The product of a count's mantissa with one that is below `2 ^ k` is rounded to half a unit less
than the count's at most. -/
theorem nearest_portion_le {m q k s : Nat} (hm : 2 ^ 52 ≤ m) (hq : q < 2 ^ 53) (hk : 53 ≤ k)
    (hs : s < k ∨ s = k ∧ 2 ^ (52 + k) ≤ m * q) :
    2 * (nearest (m * q) s * 2 ^ s) ≤ (2 * m - 1) * 2 ^ k := by
  have hpow : 2 ^ 53 ≤ 2 ^ k := Nat.pow_le_pow_right (by decide) hk
  have hproduct : m * q + m ≤ m * 2 ^ 53 := by
    rw [← Nat.mul_succ]
    exact Nat.mul_le_mul_left m hq
  rcases hs with hs | ⟨rfl, hlarge⟩
  · obtain ⟨j, rfl⟩ : ∃ j, k = j + s + 1 := ⟨k - s - 1, by omega⟩
    have hhalf : 2 * (m * q) ≤ (2 * m - 1) * 2 ^ (j + s + 1) := by
      calc 2 * (m * q) ≤ (2 * m - 1) * 2 ^ 53 := by omega
        _ ≤ (2 * m - 1) * 2 ^ (j + s + 1) := Nat.mul_le_mul_left _ hpow
    have hsplit : (2 * m - 1) * 2 ^ (j + s + 1) = 2 * ((2 * m - 1) * 2 ^ j * 2 ^ s) := by
      rw [Nat.pow_succ, Nat.pow_add]
      ring
    rw [hsplit] at hhalf ⊢
    have hnearest : nearest (m * q) s ≤ (2 * m - 1) * 2 ^ j := nearest_le (by omega)
    exact Nat.mul_le_mul_left 2 (Nat.mul_le_mul_right _ hnearest)
  · -- the product has as many digits as the count, which is then no power of two
    have hup := (nearest_bounds (m * q) s).2
    have hbelow : nearest (m * q) s < m := by
      by_contra hge
      have hmul : m * 2 ^ s ≤ nearest (m * q) s * 2 ^ s := Nat.mul_le_mul_right _ (by omega)
      have hm52 : m = 2 ^ 52 ∨ 2 ^ 52 < m := by omega
      rcases hm52 with rfl | hm52
      · rw [Nat.pow_add] at hlarge
        omega
      · have hstrict : (2 * m - 1) * 2 ^ 53 ≤ (2 * m - 1) * 2 ^ s := Nat.mul_le_mul_left _ hpow
        have hsub : (2 * m - 1) * 2 ^ s + 2 ^ s = 2 * (m * 2 ^ s) := by
          rw [← Nat.succ_mul, show (2 * m - 1).succ = 2 * m by omega, Nat.mul_assoc]
        omega
    calc 2 * (nearest (m * q) s * 2 ^ s) = 2 * nearest (m * q) s * 2 ^ s := by ring
      _ ≤ (2 * m - 1) * 2 ^ s := Nat.mul_le_mul_right _ (by omega)

theorem shiftRight_mantissa (m s : Nat) :
    ((⟨m, false, false⟩ : ExtendedMantissa) >>> s).mantissa = m / 2 ^ s := by
  cases s with
  | zero => exact (Nat.div_one m).symm
  | succ s => rw [shiftRight_succ]

theorem roundToInt_le (m : Nat) (e : Int) :
    (roundToInt .positive m e : ℚ) ≤ m * 2 ^ e := by
  have heq : roundToInt .positive m e = ((m * 2 ^ e.toNat / 2 ^ (-e).toNat : Nat) : Int) := by
    have hshift : (0 - (e - e.toNat)).toNat = (-e).toNat := by omega
    unfold roundToInt decreaseExponent shiftToExponent
    simp only [Nat.shiftLeft_eq, Int.sub_zero, hshift]
    exact congrArg Int.ofNat (shiftRight_mantissa _ _)
  have hdiv := Nat.cast_div_le (α := ℚ) (m := m * 2 ^ e.toNat) (n := 2 ^ (-e).toNat)
  rw [heq]
  refine le_trans (by exact_mod_cast hdiv) ?_
  rcases Int.le_total 0 e with he | he
  · obtain ⟨k, rfl⟩ := Int.eq_ofNat_of_zero_le he
    simp
  · obtain ⟨k, rfl⟩ := Int.exists_eq_neg_ofNat he
    simp [div_eq_mul_inv]

theorem toNat_ofNatClamp_le (n : Nat) : (UInt64.ofNatClamp n).toNat ≤ n := by
  unfold UInt64.ofNatClamp
  split
  · exact (UInt64.toNat_ofNatLT).le
  · next hlarge =>
    rw [UInt64.toNat_ofNatLT]
    omega

/-- Packing a rounded value and cutting it down does not make it larger. -/
theorem toInt_repack_settled_le {q : Nat} {t : Int} (hq : q ≤ 2 ^ 53)
    (hnormal : 2 ^ 52 ≤ q ∨ t = -1074) (hleast : -1074 ≤ t) (hmost : t ≤ 970) (a b : Int) :
    ((repack (settled q t)).toInt a b : ℚ) ≤ q * 2 ^ t := by
  unfold settled
  split
  · next hzero =>
    have hnone : (repack (.zero .positive)).toInt a b = 0 := rfl
    rw [hnone]
    positivity
  · next hpos =>
    split
    · next hlt =>
      rw [repack_finite (Nat.pos_of_ne_zero hpos) ⟨hlt, hnormal, hleast, by omega⟩]
      exact roundToInt_le q t
    · next hlt =>
      obtain rfl : q = 2 ^ 53 := by omega
      rw [repack_finite (by decide) ⟨by decide, .inl (le_refl _), by omega, by omega⟩]
      refine (roundToInt_le _ _).trans_eq ?_
      rw [zpow_add_one₀ (by norm_num)]
      push_cast
      ring

/-- The product of a count and a number below one, rounded and cut down, is not above the count. -/
theorem toInt_mul_le {n m q : Nat} {e f : Int} (hc : Counted n m e) (hr : Representable q f)
    (hpos : 0 < q) (hf : f < -52) (a b : Int) :
    ((repack (roundWithAccuracy .binary64 .positive (m * q) (e + f) .exact)).toInt a b : ℚ) ≤
      n := by
  have hlt : m < 2 ^ 53 := hc.representable.lt
  have hm := hc.normal
  have he := hc.le_exponent
  have he' := hc.exponent_le
  have hf' := hr.least
  obtain ⟨k, hk⟩ : ∃ k : Nat, f = -k := Int.exists_eq_neg_ofNat (by omega)
  obtain ⟨s, hs⟩ : ∃ s : Nat, max ((m * q).log2 + (e + f) - 52) (-1074) = e + f + s := by
    have hlong : 52 ≤ (m * q).log2 := by
      rw [Nat.le_log2 (Nat.mul_pos (by omega) hpos).ne']
      exact hm.trans (Nat.le_mul_of_pos_right m hpos)
    obtain ⟨s, hs⟩ := Int.eq_ofNat_of_zero_le
      (show 0 ≤ max ((m * q).log2 + (e + f) - 52) (-1074) - (e + f) by omega)
    exact ⟨s, by omega⟩
  have hproduct : 0 < m * q := Nat.mul_pos (by omega) hpos
  have hlow : 2 ^ (m * q).log2 ≤ m * q := Nat.log2_self_le hproduct.ne'
  have hlog : (m * q).log2 ≤ 52 + k := by
    apply log2_le
    calc m * q < 2 ^ 53 * 2 ^ 53 := Nat.mul_lt_mul'' hlt hr.lt
      _ ≤ 2 ^ 53 * 2 ^ k := Nat.mul_le_mul_left _ (Nat.pow_le_pow_right (by decide) (by omega))
      _ = 2 ^ (52 + k + 1) := by rw [← Nat.pow_add]; congr 1; omega
  have hshift : s < k ∨ s = k ∧ 2 ^ (52 + k) ≤ m * q := by
    by_cases hfull : (m * q).log2 = 52 + k
    · rw [hfull] at hlow
      by_cases hsk : s = k
      · exact .inr ⟨hsk, hlow⟩
      · exact .inl (by omega)
    · exact .inl (by omega)
  rw [roundWithAccuracy_eq hs]
  refine (toInt_repack_settled_le (nearest_le_of_target hs) (le_nearest_of_target hproduct hs)
    (by omega) (by omega) a b).trans (le_trans ?_ hc.near)
  have hportion : 2 * ((nearest (m * q) s : ℚ) * 2 ^ s) ≤ (2 * m - 1) * 2 ^ k := by
    have h := nearest_portion_le hm hr.lt (by omega : 53 ≤ k) hshift
    have hcast : ((2 * m - 1 : Nat) : ℚ) = 2 * m - 1 := by
      rw [Nat.cast_sub (by omega)]
      push_cast
      ring
    rw [← hcast]
    exact_mod_cast h
  have hunit : (2 : ℚ) ^ (e + f + s) = 2 ^ s * 2 ^ (e + f) := by
    rw [zpow_add₀ (by norm_num) (e + f), zpow_natCast, mul_comm]
  have hscale : (2 : ℚ) ^ (e - 1) = 2 ^ k * 2 ^ (e + f) / 2 := by
    rw [← zpow_natCast, ← zpow_add₀ (by norm_num), hk, show (k : Int) + (e + -k) = e by omega,
      zpow_sub_one₀ (by norm_num)]
    rfl
  have hpow : (0 : ℚ) < 2 ^ (e + f) := by positivity
  rw [hunit, hscale]
  nlinarith

end Binary64

open Binary64 Float.Model in
/-- A portion of a count is not above the count. -/
theorem wholePart_mul_le {n : Nat} {x : Float} (hn : 0 < n) (h0 : Scalar.zero < x)
    (h1 : x < Scalar.one) : Scalar.wholePart (Scalar.ofNat n * x) ≤ n := by
  have hsize : (Float.ofNat n * x).toUInt64.toNat < 2 ^ 64 := UInt64.toNat_lt _
  by_cases hlarge : 2 ^ 64 ≤ n
  · exact hsize.le.trans hlarge
  · obtain ⟨m, e, hm, hcount, hcounted⟩ := exists_counted hn (by omega)
    obtain ⟨q, f, hq, hportion, hrep, hf⟩ := exists_portion h0 h1
    have hunpack : (Float.ofNat n * x).toModel.unpack =
        repack (UnpackedFloat.mul .binary64 (Float.ofNat n).toModel.unpack x.toModel.unpack) := rfl
    rw [hcount, hportion] at hunpack
    have hle := toInt_mul_le hcounted hrep hq hf 0 (UInt64.size - 1)
    have hclamp : (Float.ofNat n * x).toUInt64.toNat ≤
        ((Float.ofNat n * x).toModel.unpack.toInt 0 (UInt64.size - 1)).toNat :=
      toNat_ofNatClamp_le _
    refine hclamp.trans ?_
    rw [hunpack]
    have hint : (repack (UnpackedFloat.mul .binary64 (.finite .positive m e hm)
        (.finite .positive q f hq))).toInt 0 (UInt64.size - 1) ≤ n := by exact_mod_cast hle
    omega

end RTree
