import PascalStack.Proofs.Number.Fields
import Mathlib.Algebra.Order.Field.Power
import Mathlib.Data.Nat.Cast.Order.Field
import Mathlib.Tactic.FieldSimp
import Mathlib.Tactic.Linarith
import Mathlib.Tactic.Positivity
import Mathlib.Tactic.Ring

/-!
# Rounding to a double

* `Binary.Near`          the rational numbers that round to a magnitude;
* `fraction`             a quotient cut to an integer, with what is known of the rest;
* `fraction_rounded`     to which integer it is rounded;
* `round_fraction`       a quotient near a magnitude is rounded to it;
* `mul_near`, `div_near` so are products and quotients of unpacked numbers.
-/

namespace PascalStack

open Float.Model Float.Model.UnpackedFloat

/-- The rational numbers that round to a magnitude: half a step around it, or a quarter below a power of
two; the ends only if the mantissa is even. -/
structure Binary.Near (b : Binary) (v : ℚ) : Prop where
  low : (b.mantissa - (if b.narrow then 1 / 4 else 1 / 2)) * 2 ^ b.exponent ≤ v
  high : v ≤ (b.mantissa + 1 / 2) * 2 ^ b.exponent
  odd : b.mantissa % 2 = 1 → (b.mantissa - (if b.narrow then 1 / 4 else 1 / 2)) * 2 ^ b.exponent < v ∧
    v < (b.mantissa + 1 / 2) * 2 ^ b.exponent

namespace Binary

variable {b : Binary} {v : ℚ}

theorem Near.half (hv : b.Near v) : (b.mantissa - 1 / 2) * 2 ^ b.exponent ≤ v ∧
    (b.mantissa % 2 = 1 → (b.mantissa - 1 / 2) * 2 ^ b.exponent < v) := by
  have hpos : (0 : ℚ) < 2 ^ b.exponent := by positivity
  have hside : (b.mantissa - 1 / 2 : ℚ) * 2 ^ b.exponent
      ≤ (b.mantissa - (if b.narrow then 1 / 4 else 1 / 2)) * 2 ^ b.exponent := by
    apply mul_le_mul_of_nonneg_right _ hpos.le
    split <;> linarith
  exact ⟨hside.trans hv.low, fun hodd => hside.trans_lt (hv.odd hodd).1⟩

theorem Near.lt_top (hv : b.Near v) (h : b.IsDouble) : v < 2 ^ (b.exponent + 53) := by
  have hlt : (b.mantissa : ℚ) + 1 ≤ 2 ^ 53 := by exact_mod_cast h.mantissa_lt
  have hpos : (0 : ℚ) < 2 ^ b.exponent := by positivity
  calc v ≤ (b.mantissa + 1 / 2) * 2 ^ b.exponent := hv.high
    _ < 2 ^ 53 * 2 ^ b.exponent := mul_lt_mul_of_pos_right (by linarith) hpos
    _ = 2 ^ (b.exponent + 53) := by rw [zpow_add₀ (by norm_num), mul_comm]; norm_num

/-- Only below a power of two do numbers with a smaller leading bit round to a magnitude. -/
theorem Near.mantissa_of_lt (hv : b.Near v) (h : b.IsDouble) (hexp : b.exponent ≠ -1074)
    (hlt : v < 2 ^ (b.exponent + 52)) : b.mantissa = 2 ^ 52 := by
  have hpos : (0 : ℚ) < 2 ^ b.exponent := by positivity
  have hfull : 2 ^ 52 ≤ b.mantissa := h.full.resolve_right hexp
  by_contra hne
  have hgt : (2 : ℚ) ^ 52 + 1 ≤ b.mantissa := by exact_mod_cast Nat.lt_of_le_of_ne hfull (Ne.symm hne)
  have hge : (2 : ℚ) ^ (b.exponent + 52) ≤ v := by
    calc (2 : ℚ) ^ (b.exponent + 52) = 2 ^ 52 * 2 ^ b.exponent := by
          rw [zpow_add₀ (by norm_num), mul_comm]; norm_num
      _ ≤ (b.mantissa - 1 / 2) * 2 ^ b.exponent := mul_le_mul_of_nonneg_right (by linarith) hpos.le
      _ ≤ v := hv.half.1
  exact absurd hlt (not_lt.mpr hge)

/-- They are less than half a step below it. -/
theorem Near.low_of_lt (hv : b.Near v) (h : b.IsDouble) (hexp : b.exponent ≠ -1074)
    (hlt : v < 2 ^ (b.exponent + 52)) : (2 ^ 52 - 1 / 4) * 2 ^ b.exponent ≤ v := by
  have hm := hv.mantissa_of_lt h hexp hlt
  have hlow := hv.low
  rw [if_pos (h.narrow.mpr ⟨hm, hexp⟩), hm] at hlow
  exact_mod_cast hlow

end Binary

namespace Double

/-! ## quotients -/

/-- The quotient of two numbers, cut to an integer. -/
def fraction (n d : Nat) : ExtendedMantissa :=
  .ofMantissaAndAccuracy (n / d) (accuracyOfFraction (n % d) d)

section
variable {n d : Nat}

theorem fraction_rest (n d : Nat) : ((fraction n d).roundBit || (fraction n d).stickyBit) = (n % d != 0) := by
  unfold fraction accuracyOfFraction
  by_cases h : n % d = 0
  · simp [h, ExtendedMantissa.ofMantissaAndAccuracy]
  · rw [if_neg h]
    have hne : (n % d != 0) = true := by simpa using h
    rw [hne]
    cases compare (2 * (n % d)) d <;> rfl

theorem fraction_mantissa (n d : Nat) : (fraction n d).mantissa = n / d := by
  unfold fraction accuracyOfFraction
  split
  · rfl
  · cases compare (2 * (n % d)) d <;> rfl

/-- A shift to the right halves the quotient. -/
theorem fraction_shift_one (hd : 0 < d) : (fraction n d).shiftRightOne = fraction n (d * 2) := by
  have hdiv : n / d / 2 = n / (d * 2) := Nat.div_div_eq_div_mul ..
  have hmod : n % (d * 2) = n % d + d * (n / d % 2) := Nat.mod_mul ..
  have hlt : n % d < d := Nat.mod_lt n hd
  unfold ExtendedMantissa.shiftRightOne
  rw [fraction_rest, fraction_mantissa, hdiv]
  unfold fraction accuracyOfFraction
  rw [hmod]
  rcases Nat.mod_two_eq_zero_or_one (n / d) with hpar | hpar
  · rw [hpar, Nat.mul_zero, Nat.add_zero]
    by_cases hr : n % d = 0
    · simp [hr, ExtendedMantissa.ofMantissaAndAccuracy]
    · have hcmp : compare (2 * (n % d)) (d * 2) = .lt := Nat.compare_eq_lt.mpr (by omega)
      rw [if_neg hr, hcmp]
      simp [hr, ExtendedMantissa.ofMantissaAndAccuracy]
  · rw [hpar, Nat.mul_one, if_neg (by omega)]
    by_cases hr : n % d = 0
    · have hcmp : compare (2 * (n % d + d)) (d * 2) = .eq := Nat.compare_eq_eq.mpr (by omega)
      rw [hcmp]
      simp [hr, ExtendedMantissa.ofMantissaAndAccuracy]
    · have hcmp : compare (2 * (n % d + d)) (d * 2) = .gt := Nat.compare_eq_gt.mpr (by omega)
      rw [hcmp]
      simp [hr, ExtendedMantissa.ofMantissaAndAccuracy]

theorem fraction_shift (hd : 0 < d) (k : Nat) : fraction n d >>> k = fraction n (d * 2 ^ k) := by
  induction k with
  | zero => rw [Nat.pow_zero, Nat.mul_one]; rfl
  | succ k ih =>
    show (fraction n d >>> k).shiftRightOne = _
    rw [ih, fraction_shift_one (Nat.mul_pos hd (Nat.two_pow_pos k)), Nat.mul_assoc, ← Nat.pow_succ]

theorem roundedMantissa_fraction (n d : Nat) :
    (fraction n d).roundedMantissa = (accuracyOfFraction (n % d) d).roundToNearestEven (n / d) := by
  unfold fraction accuracyOfFraction
  split
  · rfl
  · cases compare (2 * (n % d)) d <;> rfl

/-- A quotient is rounded to the nearest integer, and half way to the even one. -/
theorem fraction_rounded {m : Nat} (hd : 0 < d) (hlow : 2 * (m * d) ≤ 2 * n + d)
    (hhigh : 2 * n ≤ 2 * (m * d) + d)
    (hodd : m % 2 = 1 → 2 * (m * d) < 2 * n + d ∧ 2 * n < 2 * (m * d) + d) :
    (fraction n d).roundedMantissa = m := by
  have hsplit : n = n / d * d + n % d := by rw [Nat.mul_comm]; exact (Nat.div_add_mod n d).symm
  have hlt : n % d < d := Nat.mod_lt n hd
  rw [roundedMantissa_fraction]
  generalize n / d = q at hsplit ⊢
  generalize n % d = r at hsplit hlt ⊢
  -- the rounded mantissa is the quotient or the next integer
  have hm : m = q ∨ m = q + 1 := by
    have hle : m < q + 2 := by
      by_contra hge
      have := Nat.mul_le_mul_right d (Nat.not_lt.mp hge)
      rw [Nat.add_mul] at this
      omega
    have hge : q < m + 1 := by
      by_contra hle'
      have := Nat.mul_le_mul_right d (Nat.not_lt.mp hle')
      rw [Nat.add_mul] at this
      omega
    omega
  unfold accuracyOfFraction
  rcases hm with rfl | rfl
  · by_cases hr : r = 0
    · rw [if_pos hr]; rfl
    rw [if_neg hr]
    rcases Nat.lt_trichotomy (2 * r) d with h | h | h
    · rw [Nat.compare_eq_lt.mpr h]; rfl
    · rw [Nat.compare_eq_eq.mpr h]
      show m + m % 2 = m
      omega
    · omega
  · rw [Nat.add_mul] at hlow hodd
    have hr : r ≠ 0 := by omega
    rw [if_neg hr]
    rcases Nat.lt_trichotomy (2 * r) d with h | h | h
    · omega
    · rw [Nat.compare_eq_eq.mpr h]
      show q + q % 2 = q + 1
      omega
    · rw [Nat.compare_eq_gt.mpr h]; rfl

/-! ## the exponent of a rounded quotient -/

variable {e E : Int}

theorem fraction_mul_den {v : ℚ} (hd : 0 < d) (k : Nat) (hv : v = n / d * 2 ^ e) :
    v = n / ((d * 2 ^ k : Nat) : ℚ) * 2 ^ (e + k) := by
  have hd' : (d : ℚ) ≠ 0 := by positivity
  rw [hv, zpow_add₀ (by norm_num), zpow_natCast]
  push_cast
  field_simp

/-- Which bit leads a quotient. -/
theorem log2_quotient (hd : 0 < d) {j : Nat} (hlow : (2 : ℚ) ^ j ≤ n / d) (hhigh : (n : ℚ) / d < 2 ^ (j + 1)) :
    (n / d).log2 = j := by
  have hd' : (0 : ℚ) < d := by positivity
  rw [le_div_iff₀ hd'] at hlow
  rw [div_lt_iff₀ hd'] at hhigh
  have hlow : 2 ^ j * d ≤ n := by exact_mod_cast hlow
  have hhigh : n < 2 ^ (j + 1) * d := by exact_mod_cast hhigh
  have hge : 2 ^ j ≤ n / d := (Nat.le_div_iff_mul_le hd).mpr hlow
  have hlt : n / d < 2 ^ (j + 1) := (Nat.div_lt_iff_lt_mul hd).mpr hhigh
  have hne : n / d ≠ 0 := Nat.ne_of_gt (Nat.lt_of_lt_of_le (Nat.two_pow_pos j) hge)
  exact (Nat.log2_eq_iff hne).mpr ⟨hge, hlt⟩

/-- The exponent to which a quotient is rounded. -/
def target (n d : Nat) (e : Int) : Int := max ((n / d).log2 + 1 + e - 53) (-1074)

theorem le_of_quotient_lt {v : ℚ} (hv : v = n / d * 2 ^ e) (hq : n / d ≠ 0) (hlt : v < 2 ^ E) :
    ((n / d).log2 : Int) + e < E := by
  have hfloor : ((n / d : Nat) : ℚ) ≤ n / d := Nat.cast_div_le
  have hlog : ((2 ^ (n / d).log2 : Nat) : ℚ) ≤ (n / d : Nat) := by exact_mod_cast Nat.log2_self_le hq
  have hpow : (2 : ℚ) ^ (((n / d).log2 : Int) + e) ≤ v := by
    rw [zpow_add₀ (by norm_num), zpow_natCast, hv]
    push_cast at hlog
    exact mul_le_mul_of_nonneg_right (hlog.trans hfloor) (by positivity)
  exact (zpow_lt_zpow_iff_right₀ (by norm_num)).mp (lt_of_le_of_lt hpow hlt)

/-- A quotient with enough bits and `2 ^ E` as its leading power is rounded to the bit 52 below. -/
theorem target_of_leading {v : ℚ} (hv : v = n / d * 2 ^ e) (hd : 0 < d) (henough : e ≤ target n d e)
    (hE : -1022 ≤ E) (hlow : 2 ^ E ≤ v) (hhigh : v < 2 ^ (E + 1)) : target n d e = E - 52 := by
  have hle : e ≤ E := by
    unfold target at henough
    by_cases hq : n / d = 0
    · rw [hq, Nat.log2_zero] at henough
      omega
    · have := le_of_quotient_lt hv hq hhigh
      omega
  obtain ⟨j, hj⟩ := Int.eq_ofNat_of_zero_le (Int.sub_nonneg.mpr hle)
  have hE' : E = j + e := by omega
  have hpos : (0 : ℚ) < 2 ^ e := by positivity
  have hlog : (n / d).log2 = j := by
    apply log2_quotient hd
    · rw [hv, hE', zpow_add₀ (by norm_num), zpow_natCast] at hlow
      exact le_of_mul_le_mul_right hlow hpos
    · rw [hv, hE', add_right_comm, zpow_add₀ (by norm_num)] at hhigh
      exact_mod_cast lt_of_mul_lt_mul_right hhigh hpos.le
  unfold target
  rw [hlog]
  omega

/-- A quotient with enough bits that is small enough is rounded to the least exponent. -/
theorem target_of_small {v : ℚ} (hv : v = n / d * 2 ^ e) (henough : e ≤ target n d e)
    (hhigh : v < 2 ^ (-1021 : Int)) : target n d e = -1074 := by
  unfold target at henough ⊢
  by_cases hq : n / d = 0
  · rw [hq, Nat.log2_zero] at henough ⊢
    omega
  · have := le_of_quotient_lt hv hq hhigh
    omega

/-- A quotient near an integer is rounded to it. -/
theorem fraction_near {v : ℚ} {m k : Nat} (hv : v = n / d * 2 ^ e) (hd : 0 < d)
    (hlow : (m - 1 / 2) * 2 ^ (e + k) ≤ v) (hhigh : v ≤ (m + 1 / 2) * 2 ^ (e + k))
    (hodd : m % 2 = 1 → (m - 1 / 2) * 2 ^ (e + k) < v ∧ v < (m + 1 / 2) * 2 ^ (e + k)) :
    (fraction n (d * 2 ^ k)).roundedMantissa = m := by
  have hD : 0 < d * 2 ^ k := Nat.mul_pos hd (Nat.two_pow_pos k)
  have hD' : (0 : ℚ) < (d * 2 ^ k : Nat) := by exact_mod_cast hD
  have hpos : (0 : ℚ) < 2 ^ (e + k) := by positivity
  rw [fraction_mul_den hd k hv] at hlow hhigh hodd
  simp only [mul_le_mul_iff_left₀ hpos, mul_lt_mul_iff_left₀ hpos, le_div_iff₀ hD', lt_div_iff₀ hD',
    div_le_iff₀ hD', div_lt_iff₀ hD'] at hlow hhigh hodd
  generalize d * 2 ^ k = D at *
  refine fraction_rounded hD ?_ ?_ fun hm => ?_
  · have h : (2 : ℚ) * (m * D) ≤ 2 * n + D := by linarith
    exact_mod_cast h
  · have h : (2 : ℚ) * n ≤ 2 * (m * D) + D := by linarith
    exact_mod_cast h
  · obtain ⟨h₁, h₂⟩ := hodd hm
    have h₁ : (2 : ℚ) * (m * D) < 2 * n + D := by linarith
    have h₂ : (2 : ℚ) * n < 2 * (m * D) + D := by linarith
    exact ⟨by exact_mod_cast h₁, by exact_mod_cast h₂⟩

/-! ## rounding -/

theorem shiftToTarget_fraction (hd : 0 < d) {k : Nat} (hk : target n d e = e + k) :
    shiftToTargetExponent .binary64 (n / d) e (accuracyOfFraction (n % d) d)
      = (fraction n (d * 2 ^ k), e + k) := by
  have hshift : (Format.binary64.targetExponent (totalExponent (n / d) e) - e).toNat = k := by
    show (target n d e - e).toNat = k
    omega
  unfold shiftToTargetExponent shiftToExponent
  simp only [hshift]
  rw [← fraction_shift hd k]
  rfl

theorem shiftToTarget_exact {m k : Nat} (hk : target m 1 e = e + k) :
    shiftToTargetExponent .binary64 m e .exact = (fraction m (2 ^ k), e + k) := by
  have h := shiftToTarget_fraction Nat.one_pos hk
  rw [Nat.div_one, Nat.mod_one, Nat.one_mul] at h
  exact h

/-- The two shifts of a rounding: to the target, and once more if rounding has made a new bit. -/
theorem round_of_shifts {m r k j : Nat} {s : Float.Model.UnpackedFloat.Sign} (hd : 0 < d)
    (hk : target n d e = e + k) (hr : (fraction n (d * 2 ^ k)).roundedMantissa = r)
    (hj : target r 1 (e + k) = e + k + j) (hm : r / 2 ^ j = m) (hpos : 0 < m) :
    roundWithAccuracy .binary64 s (n / d) e (accuracyOfFraction (n % d) d)
      = .finite s m (e + k + j) hpos := by
  have hm' : (fraction r (2 ^ j)).mantissa = m := by rw [fraction_mantissa, hm]
  have hne : (fraction r (2 ^ j)).mantissa ≠ 0 := hm' ▸ Nat.ne_of_gt hpos
  unfold roundWithAccuracy
  rw [shiftToTarget_fraction hd hk]
  dsimp only
  rw [hr, shiftToTarget_exact hj]
  dsimp only
  rw [dif_neg hne]
  exact finite_congr hm' rfl

section
variable {b : Binary} {v : ℚ}

theorem target_self (h : b.IsDouble) : target b.mantissa 1 b.exponent = b.exponent := by
  have hleast := h.least
  unfold target
  rw [Nat.div_one]
  by_cases hfull : 2 ^ 52 ≤ b.mantissa
  · rw [log2_of_full h hfull]
    omega
  · have hlog := log2_of_not_full h hfull
    have hexp := h.full.resolve_left hfull
    omega

/-- A quotient with enough bits is rounded to the magnitude it is near to. -/
theorem round_fraction {s : Float.Model.UnpackedFloat.Sign} (h : b.IsDouble) (hnear : b.Near v)
    (hv : v = n / d * 2 ^ e) (hd : 0 < d) (henough : e ≤ target n d e) :
    roundWithAccuracy .binary64 s (n / d) e (accuracyOfFraction (n % d) d)
      = .finite s b.mantissa b.exponent h.pos := by
  have htop := hnear.lt_top h
  have hleast := h.least
  obtain ⟨k, hk⟩ := Int.eq_ofNat_of_zero_le (Int.sub_nonneg.mpr henough)
  have hk : target n d e = e + k := by omega
  by_cases hsmall : b.exponent ≠ -1074 ∧ v < 2 ^ (b.exponent + 52)
  · -- the leading bit is one lower, and rounding makes a new one
    obtain ⟨hexp, hlt⟩ := hsmall
    have hm := hnear.mantissa_of_lt h hexp hlt
    have hlow := hnear.low_of_lt h hexp hlt
    have hpos : (0 : ℚ) < 2 ^ b.exponent := by positivity
    have hge : 2 ^ (b.exponent + 51) ≤ v := by
      refine le_trans ?_ hlow
      rw [zpow_add₀ (by norm_num), mul_comm]
      exact mul_le_mul_of_nonneg_right (by norm_num) hpos.le
    have htarget := target_of_leading hv hd henough (by omega) hge (by rw [add_assoc]; exact hlt)
    have hek : e + k = b.exponent - 1 := by omega
    have hhalf : (2 : ℚ) ^ (b.exponent - 1) = 2 ^ b.exponent / 2 := by
      rw [zpow_sub₀ (by norm_num), zpow_one]
    have hr : (fraction n (d * 2 ^ k)).roundedMantissa = 2 ^ 53 := by
      apply fraction_near hv hd <;> rw [hek, hhalf]
      · refine le_trans (le_of_eq ?_) hlow
        push_cast
        ring
      · refine hlt.le.trans ?_
        rw [zpow_add₀ (by norm_num), mul_comm]
        push_cast
        linarith
      · exact fun hodd => absurd hodd (by decide)
    have hlog : (2 ^ 53 : Nat).log2 = 53 := Nat.log2_two_pow
    have hj : target (2 ^ 53) 1 (e + k) = e + k + (1 : Nat) := by
      unfold target
      rw [Nat.div_one, hlog]
      omega
    rw [round_of_shifts hd hk hr hj (by rw [hm]; norm_num) h.pos]
    congr 1
    omega
  · have hexp : target n d e = b.exponent := by
      by_cases hsub : b.exponent = -1074
      · rw [hsub] at htop ⊢
        exact target_of_small hv henough htop
      · have hge : 2 ^ (b.exponent + 52) ≤ v := not_lt.mp fun hlt => hsmall ⟨hsub, hlt⟩
        rw [target_of_leading hv hd henough (by omega) hge (by rw [add_assoc]; exact htop)]
        omega
    have hek : e + k = b.exponent := by rw [← hk, hexp]
    have hr : (fraction n (d * 2 ^ k)).roundedMantissa = b.mantissa := by
      apply fraction_near hv hd <;> rw [hek]
      · exact hnear.half.1
      · exact hnear.high
      · exact fun hodd => ⟨hnear.half.2 hodd, (hnear.odd hodd).2⟩
    have hj : target b.mantissa 1 (e + k) = e + k + (0 : Nat) := by
      rw [hek, target_self h]
      omega
    rw [round_of_shifts hd hk hr hj (Nat.div_one _) h.pos]
    congr 1
    omega

/-! ## products and quotients -/

theorem le_target_of_bits (hq : 2 ^ 52 ≤ n / d) : e ≤ target n d e := by
  have hlog : 52 ≤ (n / d).log2 := (Nat.le_log2 (by omega)).mpr hq
  unfold target
  omega

variable {s₁ s₂ : Float.Model.UnpackedFloat.Sign} {m₁ m₂ : Nat} {e₁ e₂ : Int} {h₁ : 0 < m₁} {h₂ : 0 < m₂}

/-- A product with enough bits is rounded to the magnitude it is near to. -/
theorem mul_near (h : b.IsDouble) (hnear : b.Near (m₁ * 2 ^ e₁ * (m₂ * 2 ^ e₂)))
    (hbits : 2 ^ 52 ≤ m₁ * m₂) :
    UnpackedFloat.mul .binary64 (.finite s₁ m₁ e₁ h₁) (.finite s₂ m₂ e₂ h₂)
      = .finite (s₁ * s₂) b.mantissa b.exponent h.pos := by
  have hv : (m₁ * 2 ^ e₁ * (m₂ * 2 ^ e₂) : ℚ) = (m₁ * m₂ : Nat) / (1 : Nat) * 2 ^ (e₁ + e₂) := by
    rw [zpow_add₀ (by norm_num)]
    push_cast
    ring
  have henough : e₁ + e₂ ≤ target (m₁ * m₂) 1 (e₁ + e₂) := le_target_of_bits (by rw [Nat.div_one]; exact hbits)
  have hround := round_fraction (s := s₁ * s₂) h hnear hv Nat.one_pos henough
  rw [Nat.div_one, Nat.mod_one] at hround
  exact hround

/-- The shift of a division leaves a quotient with enough bits. -/
theorem le_target_divCore {t : Int} {shift : Nat}
    (ht : t = min (e₁ - e₂) (max (m₁.log2 + 1 + e₁ - (m₂.log2 + 1 + e₂) - 53) (-1074)))
    (hshift : e₁ - e₂ = t + shift) (h₁ : 0 < m₁) (h₂ : 0 < m₂) : t ≤ target (m₁ * 2 ^ shift) m₂ t := by
  by_cases hsub : t ≤ -1074
  · exact le_trans hsub (le_max_right _ _)
  · apply le_target_of_bits
    rw [Nat.le_div_iff_mul_le h₂]
    have hexp : m₂.log2 + 53 ≤ m₁.log2 + shift := by omega
    calc 2 ^ 52 * m₂ ≤ 2 ^ 52 * 2 ^ (m₂.log2 + 1) := Nat.mul_le_mul_left _ Nat.lt_log2_self.le
      _ = 2 ^ (m₂.log2 + 53) := by rw [← Nat.pow_add]; congr 1; omega
      _ ≤ 2 ^ (m₁.log2 + shift) := Nat.pow_le_pow_right (by decide) hexp
      _ = 2 ^ m₁.log2 * 2 ^ shift := Nat.pow_add ..
      _ ≤ m₁ * 2 ^ shift := Nat.mul_le_mul_right _ (Nat.log2_self_le (Nat.ne_of_gt h₁))

/-- A quotient is rounded to the magnitude it is near to. -/
theorem div_near (h : b.IsDouble) (hnear : b.Near (m₁ * 2 ^ e₁ / (m₂ * 2 ^ e₂))) :
    UnpackedFloat.div .binary64 (.finite s₁ m₁ e₁ h₁) (.finite s₂ m₂ e₂ h₂)
      = .finite (s₁ / s₂) b.mantissa b.exponent h.pos := by
  obtain ⟨t, ht⟩ : ∃ t, t = min (e₁ - e₂) (max (m₁.log2 + 1 + e₁ - (m₂.log2 + 1 + e₂) - 53) (-1074)) := ⟨_, rfl⟩
  obtain ⟨shift, hshift⟩ : ∃ k : Nat, e₁ - e₂ = t + k := ⟨(e₁ - e₂ - t).toNat, by omega⟩
  have hcore : divCore .binary64 m₁ e₁ m₂ e₂
      = (m₁ * 2 ^ shift / m₂, t, accuracyOfFraction (m₁ * 2 ^ shift % m₂) m₂) := by
    have ht' : min (e₁ - e₂)
        (Format.binary64.targetExponent (totalExponent m₁ e₁ - totalExponent m₂ e₂)) = t := ht.symm
    have hs : (e₁ - e₂ - t).toNat = shift := by omega
    unfold divCore
    simp only [ht', hs, Nat.shiftLeft_eq]
  have h₂' : (m₂ : ℚ) ≠ 0 := by positivity
  have hv : (m₁ * 2 ^ e₁ / (m₂ * 2 ^ e₂) : ℚ) = (m₁ * 2 ^ shift : Nat) / m₂ * 2 ^ t := by
    have he : e₁ = t + shift + e₂ := by omega
    rw [he, zpow_add₀ (by norm_num), zpow_add₀ (by norm_num), zpow_natCast]
    push_cast
    field_simp
  unfold UnpackedFloat.div
  dsimp only
  rw [hcore]
  exact round_fraction h hnear hv h₂ (le_target_divCore ht hshift h₁ h₂)

end

end

end Double

end PascalStack
