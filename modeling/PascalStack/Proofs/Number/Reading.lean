import PascalStack.Proofs.Number.Rounding

/-!
# Reading a decimal

* `Exactly`          unpacked numbers of a given value, with enough bits for a product;
* `ofScientific_near`  the library's conversion gives the magnitude a decimal is near to;
* `ofDecimal_near`     so does `ofDecimal`, none of whose cases for far exponents applies.
-/

namespace PascalStack

open Float.Model Float.Model.UnpackedFloat

namespace Double

/-! ## exact numbers -/

/-- A positive unpacked number of value `v`, with 53 bits. -/
def Exactly (u : UnpackedFloat) (v : ℚ) : Prop :=
  ∃ m e h, u = .finite .positive m e h ∧ v = m * 2 ^ e ∧ 2 ^ 52 ≤ m

section
variable {b : Binary} {u₁ u₂ : UnpackedFloat} {v₁ v₂ : ℚ}

theorem Exactly.mul_near (h₁ : Exactly u₁ v₁) (h₂ : Exactly u₂ v₂) (h : b.IsDouble)
    (hnear : b.Near (v₁ * v₂)) :
    UnpackedFloat.mul .binary64 u₁ u₂ = .finite .positive b.mantissa b.exponent h.pos := by
  obtain ⟨m₁, e₁, hpos₁, rfl, rfl, hbits⟩ := h₁
  obtain ⟨m₂, e₂, hpos₂, rfl, rfl, -⟩ := h₂
  exact Double.mul_near h hnear (hbits.trans (Nat.le_mul_of_pos_right m₁ hpos₂))

theorem Exactly.div_near (h₁ : Exactly u₁ v₁) (h₂ : Exactly u₂ v₂) (h : b.IsDouble)
    (hnear : b.Near (v₁ / v₂)) :
    UnpackedFloat.div .binary64 u₁ u₂ = .finite .positive b.mantissa b.exponent h.pos := by
  obtain ⟨m₁, e₁, hpos₁, rfl, rfl, -⟩ := h₁
  obtain ⟨m₂, e₂, hpos₂, rfl, rfl, -⟩ := h₂
  exact Double.div_near h hnear

end

theorem Binary.near_self (b : Binary) : b.Near (b.mantissa * 2 ^ b.exponent) := by
  have hpos : (0 : ℚ) < 2 ^ b.exponent := by positivity
  have hlow : (b.mantissa - (if b.narrow then 1 / 4 else 1 / 2) : ℚ) * 2 ^ b.exponent
      < b.mantissa * 2 ^ b.exponent := by
    apply mul_lt_mul_of_pos_right _ hpos
    split <;> linarith
  have hhigh : (b.mantissa : ℚ) * 2 ^ b.exponent < (b.mantissa + 1 / 2) * 2 ^ b.exponent :=
    mul_lt_mul_of_pos_right (by linarith) hpos
  exact ⟨hlow.le, hhigh.le, fun _ => ⟨hlow, hhigh⟩⟩

/-- The magnitude of an integer of at most 53 bits. -/
def ofSmall (m : Nat) : Binary :=
  ⟨m * 2 ^ (52 - m.log2), -(52 - m.log2 : Nat), m * 2 ^ (52 - m.log2) = 2 ^ 52⟩

theorem isDouble_ofSmall {m : Nat} (hpos : 0 < m) (hlt : m < 2 ^ 53) : (ofSmall m).IsDouble := by
  have hlog : m.log2 < 53 := (Nat.log2_lt (Nat.ne_of_gt hpos)).mpr hlt
  have hlow : 2 ^ 52 ≤ m * 2 ^ (52 - m.log2) := by
    calc 2 ^ 52 = 2 ^ m.log2 * 2 ^ (52 - m.log2) := by rw [← Nat.pow_add]; congr 1; omega
      _ ≤ m * 2 ^ (52 - m.log2) := Nat.mul_le_mul_right _ (Nat.log2_self_le (Nat.ne_of_gt hpos))
  have hhigh : m * 2 ^ (52 - m.log2) < 2 ^ 53 := by
    calc m * 2 ^ (52 - m.log2) < 2 ^ (m.log2 + 1) * 2 ^ (52 - m.log2) :=
          Nat.mul_lt_mul_of_pos_right Nat.lt_log2_self (Nat.two_pow_pos _)
      _ = 2 ^ 53 := by rw [← Nat.pow_add]; congr 1; omega
  refine ⟨?_, hhigh, ?_, ?_, .inl hlow, ?_⟩ <;> simp only [ofSmall, decide_eq_true_eq] <;> omega

/-- An integer of at most 53 bits is converted as it is. -/
theorem exactly_toFloat {m : Nat} (hpos : 0 < m) (hlt : m < 2 ^ 53) :
    Exactly m.toUInt64.toFloat.toModel.unpack m := by
  have hb := isDouble_ofSmall hpos hlt
  have hlog : m.log2 < 53 := (Nat.log2_lt (Nat.ne_of_gt hpos)).mpr hlt
  have hnat : m.toUInt64.toNat = m := by
    show m % 2 ^ 64 = m
    omega
  have hv : ((m * 2 ^ (52 - m.log2) : Nat) : ℚ) * 2 ^ (-(52 - m.log2 : Nat) : Int) = m := by
    push_cast
    rw [zpow_neg, zpow_natCast, mul_assoc, mul_inv_cancel₀ (by positivity), mul_one]
  have hround : UnpackedFloat.ofUInt64 .binary64 m.toUInt64
      = .finite .positive (ofSmall m).mantissa (ofSmall m).exponent hb.pos := by
    have hcmp : compare (m : Int) 0 = .gt := by rw [Int.compare_eq_gt]; omega
    have htarget : Format.binary64.targetExponent (totalExponent m 0) = -(52 - m.log2 : Nat) := by
      show max ((m.log2 : Int) + 1 + 0 - 53) (-1074) = _
      omega
    have hshift : (0 - (-(52 - m.log2 : Nat) : Int)).toNat = 52 - m.log2 := by omega
    unfold UnpackedFloat.ofUInt64 UnpackedFloat.ofNat UnpackedFloat.ofInt UnpackedFloat.normalize
    rw [hnat, hcmp]
    dsimp only
    rw [Int.toNat_natCast]
    unfold UnpackedFloat.round decreaseExponent
    rw [htarget]
    dsimp only
    rw [hshift, Nat.shiftLeft_eq]
    have h := round_fraction (s := .positive) (n := (ofSmall m).mantissa) (d := 1) hb
      (Binary.near_self _) (by simp) Nat.one_pos (target_self hb).ge
    rw [Nat.div_one, Nat.mod_one] at h
    rw [Int.zero_sub]
    exact h
  refine ⟨(ofSmall m).mantissa, (ofSmall m).exponent, hb.pos, ?_, hv.symm, ?_⟩
  · show UnpackedFloat.unpack .binary64 (UnpackedFloat.pack .binary64 _) = _
    rw [hround]
    exact unpack_pack hb
  · exact hb.full.resolve_right (by simp only [ofSmall]; omega)

/-- Whether an unpacked number is `10 ^ k`, with 53 bits. -/
def isPowerOfTen (u : UnpackedFloat) (k : Nat) : Bool :=
  match u with
  | .finite .positive m e _ => m * 2 ^ e.toNat == 10 ^ k * 2 ^ (-e).toNat && 2 ^ 52 ≤ m
  | _ => false

theorem exactly_of_isPowerOfTen {u : UnpackedFloat} {k : Nat} (h : isPowerOfTen u k = true) :
    Exactly u ((10 ^ k : Nat) : ℚ) := by
  match u, h with
  | .finite .positive m e hpos, h =>
    have h : (m * 2 ^ e.toNat == 10 ^ k * 2 ^ (-e).toNat && decide (2 ^ 52 ≤ m)) = true := h
    rw [Bool.and_eq_true, beq_iff_eq, decide_eq_true_eq] at h
    refine ⟨m, e, hpos, rfl, ?_, h.2⟩
    have hq : (m * 2 ^ e.toNat : ℚ) = (10 ^ k : Nat) * 2 ^ (-e).toNat := by exact_mod_cast h.1
    have he : (2 : ℚ) ^ e = 2 ^ e.toNat / 2 ^ (-e).toNat := by
      rw [← zpow_natCast, ← zpow_natCast, ← zpow_sub₀ (by norm_num)]
      congr 1
      omega
    rw [he, mul_div_assoc', hq, mul_div_cancel_right₀ _ (by positivity)]

theorem exactly_powerOfTen {k : Nat} {x : Float} (h : Float.exactlyRepresentablePowersOfTen[k]? = some x) :
    Exactly x.toModel.unpack ((10 ^ k : Nat) : ℚ) := by
  have hall : (Float.exactlyRepresentablePowersOfTen.toList.zipIdx.all fun p =>
      isPowerOfTen p.1.toModel.unpack p.2) = true := by decide +kernel
  rw [List.all_eq_true] at hall
  apply exactly_of_isPowerOfTen
  refine hall (x, k) ?_
  rw [List.mem_zipIdx_iff_getElem?, Array.getElem?_toList]
  exact h

/-! ## conversion of a decimal -/

section
variable {b : Binary} {m : Nat}

theorem near_bounds {v : ℚ} (h : b.IsDouble) (hnear : b.Near v) : 2 ^ (-1075 : Int) ≤ v ∧ v < 2 ^ (1024 : Int) := by
  have hm : (1 : ℚ) ≤ b.mantissa := by exact_mod_cast h.pos
  constructor
  · calc (2 : ℚ) ^ (-1075 : Int) = 2 ^ (-1 + -1074 : Int) := rfl
      _ = 1 / 2 * 2 ^ (-1074 : Int) := by rw [zpow_add₀ (by norm_num), zpow_neg_one, one_div]
      _ ≤ (b.mantissa - 1 / 2) * 2 ^ b.exponent :=
          mul_le_mul (by linarith) (zpow_le_zpow_right₀ (by norm_num) h.least) (by positivity) (by linarith)
      _ ≤ v := hnear.half.1
  · have hgreatest := h.greatest
    exact (hnear.lt_top h).trans_le (zpow_le_zpow_right₀ (by norm_num) (by omega))

/-- The powers of ten around a value near a magnitude are not far away. -/
theorem power_bounds {v : ℚ} {j : Int} (h : b.IsDouble) (hnear : b.Near v) :
    (10 ^ j ≤ v → j < 309) ∧ (v < 10 ^ j → -324 < j) := by
  obtain ⟨hlow, hhigh⟩ := near_bounds h hnear
  constructor
  · intro hj
    have htop : (2 : ℚ) ^ 1024 < 10 ^ 309 := by
      exact_mod_cast (by decide +kernel : (2 : Nat) ^ 1024 < 10 ^ 309)
    rw [← zpow_ofNat, ← zpow_ofNat] at htop
    exact (zpow_lt_zpow_iff_right₀ (by norm_num)).mp ((hj.trans_lt hhigh).trans htop)
  · intro hj
    have hbottom : (2 : ℚ) ^ 1075 < 10 ^ 324 := by
      exact_mod_cast (by decide +kernel : (2 : Nat) ^ 1075 < 10 ^ 324)
    have hbottom : (10 : ℚ) ^ (-324 : Int) < 2 ^ (-1075 : Int) := by
      rw [zpow_neg, zpow_neg, zpow_ofNat, zpow_ofNat]
      exact inv_strictAnti₀ (by positivity) hbottom
    exact (zpow_lt_zpow_iff_right₀ (by norm_num)).mp (hbottom.trans_le (hlow.trans hj.le))

theorem digits_pos_of_near {e : Int} (h : b.IsDouble) (hnear : b.Near (m * 10 ^ e)) : 0 < m := by
  rcases Nat.eq_zero_or_pos m with rfl | hpos
  · have hlow := (near_bounds h hnear).1
    have hpos : (0 : ℚ) < 2 ^ (-1075 : Int) := by positivity
    rw [Nat.cast_zero, zero_mul] at hlow
    exact absurd hpos (not_lt.mpr hlow)
  · exact hpos

theorem exponent_le_of_near {e : Int} (h : b.IsDouble) (hnear : b.Near (m * 10 ^ e)) : e < 309 := by
  apply (power_bounds h hnear).1
  have hm : (1 : ℚ) ≤ m := by exact_mod_cast digits_pos_of_near h hnear
  have hten : (0 : ℚ) < 10 ^ e := by positivity
  exact le_mul_of_one_le_left hten.le hm

theorem le_exponent_of_near {e : Int} (h : b.IsDouble) (hnear : b.Near (m * 10 ^ e)) :
    -(2048 + m.log2 : Int) ≤ e := by
  by_contra hlt
  have hlog : (m : ℚ) ≤ 2 ^ ((m.log2 : Int) + 1) := by
    have := Nat.lt_log2_self (n := m).le
    exact_mod_cast this
  have hten : (10 : ℚ) ^ e ≤ 2 ^ e := by
    obtain ⟨k, rfl⟩ : ∃ k : Nat, e = -k := ⟨(-e).toNat, by omega⟩
    rw [zpow_neg, zpow_neg, zpow_natCast, zpow_natCast]
    exact inv_anti₀ (by positivity) (pow_le_pow_left₀ (by norm_num) (by norm_num) k)
  have hv : (m : ℚ) * 10 ^ e ≤ 2 ^ ((m.log2 : Int) + 1 + e) := by
    rw [zpow_add₀ (by norm_num)]
    exact mul_le_mul hlog hten (by positivity) (by positivity)
  have := (zpow_le_zpow_iff_right₀ (by norm_num : (1 : ℚ) < 2)).mp ((near_bounds h hnear).1.trans hv)
  omega

/-- Few digits and a small power of ten: both are exact. -/
theorem ofScientific_small {s : Bool} {e : Nat} (hpos : 0 < m) (hsmall : m < 2 ^ 53 ∧ e ≤ 22)
    (h : b.IsDouble) (hnear : b.Near (m * 10 ^ (if s then -e else e : Int))) :
    Float.ofScientific m s e = ofBinary false b h.pos := by
  have hm := exactly_toFloat hpos hsmall.1
  have hten := exactly_powerOfTen (k := e) (Array.getElem?_eq_getElem (by
    show e < 23
    omega))
  unfold Float.ofScientific
  rw [dif_pos hsmall]
  cases s with
  | false =>
    rw [if_neg (by decide)] at hnear ⊢
    rw [zpow_natCast] at hnear
    have hmul := hm.mul_near hten h (by push_cast; exact hnear)
    show Float.ofModel (.pack (UnpackedFloat.mul .binary64 _ _)) = _
    rw [hmul]
    rfl
  | true =>
    rw [if_pos rfl] at hnear ⊢
    rw [zpow_neg, zpow_natCast, ← div_eq_mul_inv] at hnear
    have hdiv := hm.div_near hten h (by push_cast; exact hnear)
    show Float.ofModel (.pack (UnpackedFloat.div .binary64 _ _)) = _
    rw [hdiv]
    rfl

/-- The general case: one multiplication or division of integers. -/
theorem unpacked_ofScientific {e : Int} (h : b.IsDouble) (hnear : b.Near (m * 10 ^ e)) :
    UnpackedFloat.ofScientific .binary64 m e = .finite .positive b.mantissa b.exponent h.pos := by
  have hpos := digits_pos_of_near h hnear
  have htop := exponent_le_of_near h hnear
  have hbottom := le_exponent_of_near h hnear
  have hinf : ¬ e > 2 ^ Format.binary64.exponentBits := by
    show ¬ e > 2 ^ 11
    omega
  have hzero : ¬ e < -((2 ^ Format.binary64.exponentBits : Int) + m.log2) := by
    show ¬ e < -(2 ^ 11 + (m.log2 : Int))
    omega
  unfold UnpackedFloat.ofScientific
  rw [dif_neg (Nat.ne_of_gt hpos), if_neg hinf, if_neg hzero]
  by_cases he : 0 ≤ e
  · obtain ⟨k, rfl⟩ := Int.eq_ofNat_of_zero_le he
    rw [if_pos he]
    have hv : ((m <<< 53 : Nat) : ℚ) * 2 ^ (-53 : Int) * ((10 ^ k : Nat) * 2 ^ (0 : Int)) = m * 10 ^ (k : Int) := by
      rw [Nat.shiftLeft_eq, zpow_natCast]
      push_cast
      rw [zpow_neg, zpow_ofNat]
      ring
    refine Double.mul_near h ?_ ?_
    · show b.Near (((m <<< 53 : Nat) : ℚ) * 2 ^ (-53 : Int) * ((10 ^ k : Nat) * 2 ^ (0 : Int)))
      rw [hv]
      exact hnear
    · show 2 ^ 52 ≤ m <<< 53 * 10 ^ k
      rw [Nat.shiftLeft_eq]
      have hten : 0 < 10 ^ k := Nat.pow_pos (by decide)
      calc 2 ^ 52 ≤ m * 2 ^ 53 := by omega
        _ ≤ m * 2 ^ 53 * 10 ^ k := Nat.le_mul_of_pos_right _ hten
  · obtain ⟨k, rfl⟩ : ∃ k : Nat, e = -k := ⟨(-e).toNat, by omega⟩
    rw [if_neg he]
    have hk : (- -(k : Int)).toNat = k := by omega
    have hv : ((m : Nat) : ℚ) * 2 ^ (0 : Int) / ((10 ^ k : Nat) * 2 ^ (0 : Int)) = m * 10 ^ (-k : Int) := by
      rw [zpow_neg, zpow_natCast]
      push_cast
      rw [mul_one, mul_one, div_eq_mul_inv]
    refine Double.div_near h ?_
    rw [hk, hv]
    exact hnear

theorem ofScientific_near {s : Bool} {e : Nat} (h : b.IsDouble)
    (hnear : b.Near (m * 10 ^ (if s then -e else e : Int))) :
    Float.ofScientific m s e = ofBinary false b h.pos := by
  by_cases hsmall : m < 2 ^ 53 ∧ e ≤ 22
  · exact ofScientific_small (digits_pos_of_near h hnear) hsmall h hnear
  · have he : (if s then Int.negOfNat e else Int.ofNat e) = (if s then -e else e : Int) := by
      cases s
      · rfl
      · exact Int.negOfNat_eq
    unfold Float.ofScientific
    rw [dif_neg hsmall]
    show Float.ofModel (.pack (UnpackedFloat.ofScientific .binary64 m (if s then _ else _))) = _
    rw [he, unpacked_ofScientific h hnear]
    rfl

/-- A decimal near a magnitude is read as that magnitude. -/
theorem ofDecimal_near {e : Int} (h : b.IsDouble) (hnear : b.Near (m * 10 ^ e)) :
    ofDecimal m e = ofBinary false b h.pos := by
  have hpos := digits_pos_of_near h hnear
  have hten : (0 : ℚ) < 10 ^ e := by positivity
  obtain ⟨n, hn⟩ : ∃ n, (Nat.toDigits 10 m).length = n + 1 :=
    Nat.exists_eq_add_one.mpr Nat.length_toDigits_pos
  -- the leading digit gives the powers of ten around the value
  have hlow : (10 : ℚ) ^ (e + n) ≤ m * 10 ^ e := by
    have hge : 10 ^ n ≤ m := by
      by_contra hlt
      have hlen := (Nat.length_toDigits_le_iff (b := 10) (n := m) (k := n) (by decide) ?_).mpr (Nat.not_le.mp hlt)
      · omega
      · rcases Nat.eq_zero_or_pos n with rfl | hn
        · omega
        · exact hn
    have hge : (10 : ℚ) ^ n ≤ m := by exact_mod_cast hge
    rw [zpow_add₀ (by norm_num), zpow_natCast, mul_comm]
    exact mul_le_mul_of_nonneg_right hge hten.le
  have hhigh : (m : ℚ) * 10 ^ e < 10 ^ (e + n + 1) := by
    have hlt := (Nat.length_toDigits_le_iff (b := 10) (n := m) (k := n + 1) (by decide) (by omega)).mp hn.le
    have hlt : (m : ℚ) < 10 ^ (n + 1) := by exact_mod_cast hlt
    rw [add_assoc, add_comm, zpow_add₀ (by norm_num)]
    exact mul_lt_mul_of_pos_right (by exact_mod_cast hlt) hten
  have htop := (power_bounds h hnear).1 hlow
  have hbottom := (power_bounds h hnear).2 hhigh
  have hsign : (if decide (e < 0) = true then -(e.natAbs : Int) else e.natAbs) = e := by
    by_cases he : e < 0
    · rw [if_pos (decide_eq_true he)]; omega
    · rw [if_neg (by simpa using he)]; omega
  unfold ofDecimal
  simp only [hn]
  rw [if_neg (by push_cast; omega), if_neg (by push_cast; omega)]
  exact ofScientific_near h (by rw [hsign]; exact hnear)

end

end Double

end PascalStack
