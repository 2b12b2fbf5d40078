import PascalStack.Proofs.Number.Rounding

/-!
# The shortest decimal is near

* `Ratio.rat`         the rational number of a fraction;
* `covers_iff`        the test of the interval, in rational numbers;
* `leading_le`        the leading power of ten is not above the value;
* `onGrid_isSome`     the grid of seventeen digits has a point in the interval;
* `shortest_near`     the shortest decimal rounds to the magnitude it was made from.
-/

namespace PascalStack

/-! ## fractions -/

def Ratio.rat (r : Ratio) : ℚ := r.num / r.den

def Decimal.rat (d : Decimal) : ℚ := d.digits * 10 ^ d.exponent

namespace Ratio

variable {r s : Ratio}

theorem den_scale_pos {base n : Nat} {e : Int} (hbase : 0 < base) : 0 < (scale base n e).den := by
  unfold scale
  split
  · exact Nat.one_pos
  · exact Nat.pow_pos hbase

theorem rat_scale {base n : Nat} {e : Int} (hbase : 0 < base) : (scale base n e).rat = n * (base : ℚ) ^ e := by
  have hne : (base : ℚ) ≠ 0 := by positivity
  unfold scale rat
  by_cases he : 0 ≤ e
  · obtain ⟨k, rfl⟩ := Int.eq_ofNat_of_zero_le he
    rw [if_pos he, zpow_natCast]
    show ((n * base ^ k : Nat) : ℚ) / (1 : Nat) = _
    push_cast
    rw [div_one]
  · obtain ⟨k, rfl⟩ : ∃ k : Nat, e = -k := ⟨(-e).toNat, by omega⟩
    have hk : (- -(k : Int)).toNat = k := by omega
    rw [if_neg he, hk, zpow_neg, zpow_natCast]
    show (n : ℚ) / (base ^ k : Nat) = _
    push_cast
    rw [div_eq_mul_inv]

theorem den_shift_pos (hr : 0 < r.den) (e : Int) : 0 < (r.shift e).den := by
  unfold shift
  split
  · exact hr
  · exact Nat.mul_pos hr (Nat.pow_pos (by decide))

theorem rat_shift (e : Int) : (r.shift e).rat = r.rat * 10 ^ e := by
  unfold shift rat
  by_cases he : 0 ≤ e
  · obtain ⟨k, rfl⟩ := Int.eq_ofNat_of_zero_le he
    rw [if_pos he, zpow_natCast]
    show ((r.num * 10 ^ k : Nat) : ℚ) / r.den = _
    push_cast
    ring
  · obtain ⟨k, rfl⟩ : ∃ k : Nat, e = -k := ⟨(-e).toNat, by omega⟩
    have hk : (- -(k : Int)).toNat = k := by omega
    rw [if_neg he, hk, zpow_neg, zpow_natCast]
    show (r.num : ℚ) / (r.den * 10 ^ k : Nat) = _
    push_cast
    rw [div_mul_eq_div_div, div_eq_mul_inv (_ / _)]

theorem le_iff (hr : 0 < r.den) (hs : 0 < s.den) : r.le s = true ↔ r.rat ≤ s.rat := by
  have hr' : (0 : ℚ) < r.den := by exact_mod_cast hr
  have hs' : (0 : ℚ) < s.den := by exact_mod_cast hs
  unfold le rat
  rw [decide_eq_true_eq, div_le_div_iff₀ hr' hs']
  exact_mod_cast Iff.rfl

theorem lt_iff (hr : 0 < r.den) (hs : 0 < s.den) : r.lt s = true ↔ r.rat < s.rat := by
  have hr' : (0 : ℚ) < r.den := by exact_mod_cast hr
  have hs' : (0 : ℚ) < s.den := by exact_mod_cast hs
  unfold lt rat
  rw [decide_eq_true_eq, div_lt_div_iff₀ hr' hs']
  exact_mod_cast Iff.rfl

end Ratio

namespace Binary

variable {b : Binary} {r : Ratio}

/-! ## the interval -/

theorem den_quarters_pos (b : Binary) (n : Nat) : 0 < (b.quarters n).den := Ratio.den_scale_pos (by decide)

theorem rat_quarters (b : Binary) (n : Nat) : (b.quarters n).rat = n / 4 * 2 ^ b.exponent := by
  unfold quarters
  rw [Ratio.rat_scale (by decide), Nat.cast_ofNat, zpow_sub₀ (by norm_num)]
  norm_num
  ring

theorem den_value_pos (b : Binary) : 0 < b.value.den := den_quarters_pos b _

theorem rat_value (b : Binary) : b.value.rat = b.mantissa * 2 ^ b.exponent := by
  unfold value
  rw [rat_quarters]
  push_cast
  ring

theorem rat_upper (b : Binary) : b.upper.rat = (b.mantissa + 1 / 2) * 2 ^ b.exponent := by
  unfold upper
  rw [rat_quarters]
  push_cast
  ring

theorem rat_lower (h : 0 < b.mantissa) :
    b.lower.rat = (b.mantissa - (if b.narrow then 1 / 4 else 1 / 2)) * 2 ^ b.exponent := by
  unfold lower
  rw [rat_quarters]
  congr 1
  split
  · rw [Nat.cast_sub (by omega)]
    push_cast
    ring
  · rw [Nat.cast_sub (by omega)]
    push_cast
    ring

/-- The test of the interval, in rational numbers. -/
theorem covers_iff (h : 0 < b.mantissa) (hr : 0 < r.den) : b.covers r = true ↔ b.Near r.rat := by
  have hlower : 0 < b.lower.den := den_quarters_pos b _
  have hupper : 0 < b.upper.den := den_quarters_pos b _
  unfold covers
  by_cases heven : b.mantissa % 2 = 0
  · rw [if_pos heven, Bool.and_eq_true, Ratio.le_iff hlower hr, Ratio.le_iff hr hupper, rat_lower h, rat_upper]
    exact ⟨fun hb => ⟨hb.1, hb.2, fun hodd => by omega⟩, fun hb => ⟨hb.low, hb.high⟩⟩
  · rw [if_neg heven, Bool.and_eq_true, Ratio.lt_iff hlower hr, Ratio.lt_iff hr hupper, rat_lower h, rat_upper]
    exact ⟨fun hb => ⟨hb.1.le, hb.2.le, fun _ => hb⟩, fun hb => hb.odd (by omega)⟩

/-! ## the leading power of ten -/

theorem rat_power (e : Int) : (Ratio.scale 10 1 e).rat = 10 ^ e := by
  rw [Ratio.rat_scale (by decide), Nat.cast_one, one_mul]
  norm_num

/-- The search ends at a power that is not above the value, if one lies within its reach. -/
theorem leading_le (hr : 0 < r.den) :
    ∀ (fuel : Nat) (e : Int), (10 : ℚ) ^ (e - fuel) ≤ r.rat → (10 : ℚ) ^ leading r fuel e ≤ r.rat
  | 0, e, h => by
    rw [Nat.cast_zero, sub_zero] at h
    exact h
  | fuel + 1, e, h => by
    unfold leading
    split
    · rename_i htest
      rw [Ratio.le_iff (Ratio.den_scale_pos (by decide)) hr, rat_power] at htest
      exact htest
    · refine leading_le hr fuel (e - 1) ?_
      have he : e - 1 - (fuel : Int) = e - (fuel + 1 : Nat) := by push_cast; ring
      rw [he]
      exact h

/-- The estimate of the decimal exponent is low enough for every exponent of a double. -/
theorem estimate_le {l : Int} (hlow : -1074 ≤ l) (hhigh : l < 1024) :
    (10 : ℚ) ^ (l * 30103 / 100000 - 3) ≤ 2 ^ l := by
  have hall : ((List.range 2098).all fun i => (Ratio.scale 10 1 (((i : Int) - 1074) * 30103 / 100000 - 3)).le
      (Ratio.scale 2 1 ((i : Int) - 1074))) = true := by decide +kernel
  rw [List.all_eq_true] at hall
  have hi := hall (l + 1074).toNat (List.mem_range.mpr (by omega))
  have hl : ((l + 1074).toNat : Int) - 1074 = l := by omega
  rw [hl, Ratio.le_iff (Ratio.den_scale_pos (by decide)) (Ratio.den_scale_pos (by decide)), rat_power,
    Ratio.rat_scale (by decide), Nat.cast_one, one_mul] at hi
  exact_mod_cast hi

theorem leading_value_le (h : b.IsDouble) :
    (10 : ℚ) ^ leading b.value 4 ((b.exponent + b.mantissa.log2) * 30103 / 100000 + 1) ≤ b.value.rat := by
  have hleast := h.least
  have hgreatest := h.greatest
  have hlog : b.mantissa.log2 < 53 := (Nat.log2_lt (Nat.ne_of_gt h.pos)).mpr h.mantissa_lt
  apply leading_le (den_value_pos b)
  have he : (b.exponent + b.mantissa.log2) * 30103 / 100000 + 1 - (4 : Nat)
      = (b.exponent + b.mantissa.log2) * 30103 / 100000 - 3 := by omega
  have hpow : ((2 ^ b.mantissa.log2 : Nat) : ℚ) ≤ b.mantissa := by
    exact_mod_cast Nat.log2_self_le (Nat.ne_of_gt h.pos)
  have hpos : (0 : ℚ) < 2 ^ b.exponent := by positivity
  rw [he, rat_value]
  calc (10 : ℚ) ^ ((b.exponent + b.mantissa.log2) * 30103 / 100000 - 3)
      ≤ 2 ^ (b.exponent + b.mantissa.log2) := estimate_le (by omega) (by omega)
    _ = (2 ^ b.mantissa.log2 : Nat) * 2 ^ b.exponent := by
        rw [zpow_add₀ (by norm_num), zpow_natCast, mul_comm]
        push_cast
        rfl
    _ ≤ b.mantissa * 2 ^ b.exponent := mul_le_mul_of_nonneg_right hpow hpos.le

/-! ## the grid -/

/-- A quotient rounded to the nearest integer, half way either way. -/
theorem nearest_close {n d : Nat} {high : Bool} (hd : 0 < d) (hup : high = true → d ≤ 2 * (n % d))
    (hdown : high = false → 2 * (n % d) ≤ d) :
    |(((if high then n / d + 1 else n / d) : Nat) : ℚ) - n / d| ≤ 1 / 2 := by
  have hd' : (0 : ℚ) < d := by exact_mod_cast hd
  have hsplit : (n : ℚ) = d * (n / d : Nat) + (n % d : Nat) := by exact_mod_cast (Nat.div_add_mod n d).symm
  have hlt : ((n % d : Nat) : ℚ) < d := by exact_mod_cast Nat.mod_lt n hd
  have hquot : (n : ℚ) / d = (n / d : Nat) + (n % d : Nat) / d := by
    rw [hsplit]
    field_simp
  rw [hquot]
  cases high with
  | true =>
    have hup : (d : ℚ) ≤ 2 * (n % d : Nat) := by exact_mod_cast hup rfl
    have hge : 1 / 2 ≤ ((n % d : Nat) : ℚ) / d := by rw [le_div_iff₀ hd']; linarith
    have hle : ((n % d : Nat) : ℚ) / d ≤ 1 := by rw [div_le_iff₀ hd']; linarith
    rw [if_pos rfl, abs_le]
    push_cast
    constructor <;> linarith
  | false =>
    have hdown : 2 * ((n % d : Nat) : ℚ) ≤ d := by exact_mod_cast hdown rfl
    have hle : ((n % d : Nat) : ℚ) / d ≤ 1 / 2 := by rw [div_le_iff₀ hd']; linarith
    have hge : 0 ≤ ((n % d : Nat) : ℚ) / d := by positivity
    rw [if_neg (by decide), abs_le]
    constructor <;> linarith

/-- What is nearer than half a unit of the seventeenth digit is near. -/
theorem near_of_close {v : ℚ} (h : b.IsDouble)
    (hv : |v - b.mantissa * 2 ^ b.exponent| ≤ b.mantissa * 2 ^ b.exponent / (2 * 10 ^ 16)) : b.Near v := by
  have hpos : (0 : ℚ) < 2 ^ b.exponent := by positivity
  have hlt : (b.mantissa : ℚ) < 2 ^ 53 := by exact_mod_cast h.mantissa_lt
  rw [abs_le] at hv
  -- the distance is below a quarter or half of a step
  have hstep : (b.mantissa : ℚ) / (2 * 10 ^ 16) < if b.narrow then 1 / 4 else 1 / 2 := by
    split
    · rename_i hnarrow
      rw [(h.narrow.mp hnarrow).1]
      norm_num
    · rw [div_lt_iff₀ (by norm_num)]
      linarith
  have hhalf : (b.mantissa : ℚ) / (2 * 10 ^ 16) < 1 / 2 := by
    rw [div_lt_iff₀ (by norm_num)]
    linarith
  have hlow : (b.mantissa - (if b.narrow then 1 / 4 else 1 / 2) : ℚ) * 2 ^ b.exponent < v := by
    have := mul_lt_mul_of_pos_right hstep hpos
    linarith
  have hhigh : v < (b.mantissa + 1 / 2) * 2 ^ b.exponent := by
    have := mul_lt_mul_of_pos_right hhalf hpos
    linarith
  exact ⟨hlow.le, hhigh.le, fun _ => ⟨hlow, hhigh⟩⟩

/-- The neighbour tried first is a nearest one. -/
theorem onGrid_eq (b : Binary) (tie : Tie) (k : Int) {r : Ratio} (hr : b.value.shift (-k) = r) :
    ∃ high : Bool, (high = true → r.den ≤ 2 * (r.num % r.den)) ∧ (high = false → 2 * (r.num % r.den) ≤ r.den) ∧
      b.onGrid tie k = [if high then r.num / r.den + 1 else r.num / r.den,
        if high then r.num / r.den else r.num / r.den + 1].find? fun n => b.covers (Ratio.scale 10 n k) := by
  subst hr
  refine ⟨_, ?_, ?_, rfl⟩
  · intro h
    split at h
    · omega
    · exact (decide_eq_true_eq.mp h).le
  · intro h
    split at h
    · omega
    · exact Nat.not_lt.mp (decide_eq_false_iff_not.mp h)

theorem onGrid_isSome {tie : Tie} {k : Int} (h : b.IsDouble) (hk : 10 ^ (k + 16) ≤ b.value.rat) :
    (b.onGrid tie k).isSome = true := by
  obtain ⟨r, hr⟩ : ∃ r, b.value.shift (-k) = r := ⟨_, rfl⟩
  obtain ⟨high, hup, hdown, hgrid⟩ := onGrid_eq b tie k hr
  have hden : 0 < r.den := hr ▸ Ratio.den_shift_pos (den_value_pos b) (-k)
  have hrat : (r.num : ℚ) / r.den = b.value.rat * 10 ^ (-k) := hr ▸ Ratio.rat_shift (-k)
  rw [hgrid]
  -- the neighbour tried first is within half a unit of the grid
  have hclose := nearest_close hden hup hdown
  generalize (if high then r.num / r.den + 1 else r.num / r.den) = first at hclose ⊢
  have hcovers : b.covers (Ratio.scale 10 first k) = true := by
    rw [covers_iff h.pos (Ratio.den_scale_pos (by decide)), Ratio.rat_scale (by decide)]
    apply near_of_close h
    have hten : (0 : ℚ) < 10 ^ k := by positivity
    have hdist : (first : ℚ) * ((10 : Nat) : ℚ) ^ k - b.mantissa * 2 ^ b.exponent
        = (first - r.num / r.den) * 10 ^ k := by
      rw [hrat, ← rat_value, sub_mul, mul_assoc, ← zpow_add₀ (by norm_num)]
      norm_num
    rw [hdist, abs_mul, abs_of_pos hten, ← rat_value]
    rw [zpow_add₀ (by norm_num)] at hk
    rw [le_div_iff₀ (by norm_num)]
    have := mul_le_mul_of_nonneg_right hclose hten.le
    have hsixteen : (10 : ℚ) ^ (16 : Int) = 10 ^ 16 := by norm_num
    rw [hsixteen] at hk
    linarith
  rw [List.find?_cons_of_pos (p := fun n => b.covers (Ratio.scale 10 n k)) hcovers]
  rfl

/-! ## the search -/

theorem onGrid_near {tie : Tie} {k : Int} {n : Nat} (h : b.IsDouble) (hn : b.onGrid tie k = some n) :
    b.Near (n * 10 ^ k) := by
  have hcovers := List.find?_some hn
  rw [covers_iff h.pos (Ratio.den_scale_pos (by decide)), Ratio.rat_scale (by decide)] at hcovers
  exact_mod_cast hcovers

/-- The search ends with a decimal near the magnitude, if some grid it looks at has one. -/
theorem search_near {tie : Tie} {lead : Int} (h : b.IsDouble) : ∀ (fuel n : Nat),
    (∃ i < fuel, (b.onGrid tie (lead + 1 - (n + i : Nat))).isSome = true) →
    b.Near (b.search tie lead fuel n).rat
  | 0, _, ⟨i, hi, _⟩ => absurd hi (Nat.not_lt_zero i)
  | fuel + 1, n, ⟨i, hi, hsome⟩ => by
    unfold search
    cases hgrid : b.onGrid tie (lead + 1 - n) with
    | some d =>
      simp only [hgrid]
      exact onGrid_near h hgrid
    | none =>
      simp only [hgrid]
      apply search_near h fuel (n + 1)
      cases i with
      | zero =>
        rw [Nat.add_zero, hgrid] at hsome
        cases hsome
      | succ i =>
        refine ⟨i, Nat.lt_of_succ_lt_succ hi, ?_⟩
        rw [Nat.succ_add_eq_add_succ]
        exact hsome

end Binary

theorem Decimal.rat_strip : ∀ (fuel : Nat) (d : Decimal), (d.strip fuel).rat = d.rat
  | 0, _ => rfl
  | fuel + 1, d => by
    unfold Decimal.strip
    split
    · rename_i htail
      rw [Decimal.rat_strip fuel]
      have hdigits : (d.digits : ℚ) = (d.digits / 10 : Nat) * 10 := by
        exact_mod_cast (Nat.div_mul_cancel (Nat.dvd_of_mod_eq_zero htail.1)).symm
      unfold Decimal.rat
      rw [hdigits, zpow_add₀ (by norm_num), zpow_one]
      ring
    · rfl

/-- The shortest decimal rounds to the magnitude it was made from. -/
theorem Binary.shortest_near {b : Binary} (h : b.IsDouble) (tie : Tie) : b.Near (b.shortest tie).rat := by
  unfold Binary.shortest
  rw [Decimal.rat_strip]
  refine Binary.search_near h 17 1 ⟨16, by decide, Binary.onGrid_isSome h ?_⟩
  have hlead := Binary.leading_value_le h
  generalize Binary.leading b.value 4 _ = lead at hlead ⊢
  have hk : lead + 1 - (1 + 16 : Nat) + 16 = lead := by omega
  rw [hk]
  exact hlead

end PascalStack
