import Mathlib.Algebra.Ring.Nat
import PascalStack.Number.Double

/-!
# Doubles and their magnitudes

* `Binary.IsDouble`     the magnitudes of doubles that are finite and not zero;
* `Double.ofBinary`     the double of a sign and such a magnitude;
* `unpack_ofBinary`     it is unpacked again as it was packed;
* `parts_eq_finite`     a double is that of its parts.
-/

namespace PascalStack

open Float.Model Float.Model.UnpackedFloat

/-- The magnitude of a double that is finite and not zero: with the full 53 bits, or with the least
exponent. -/
structure Binary.IsDouble (b : Binary) : Prop where
  pos : 0 < b.mantissa
  mantissa_lt : b.mantissa < 2 ^ 53
  least : -1074 ≤ b.exponent
  greatest : b.exponent ≤ 971
  full : 2 ^ 52 ≤ b.mantissa ∨ b.exponent = -1074
  narrow : b.narrow = true ↔ b.mantissa = 2 ^ 52 ∧ b.exponent ≠ -1074

namespace Double

def signOf (negative : Bool) : Float.Model.UnpackedFloat.Sign := if negative then .negative else .positive

def ofBinary (negative : Bool) (b : Binary) (h : 0 < b.mantissa) : Float :=
  .ofModel (.pack (.finite (signOf negative) b.mantissa b.exponent h))

/-! ## the fields of a double -/

theorem toNat_packComponents (s : Float.Model.UnpackedFloat.Sign) (e : BitVec 11) (m : BitVec 52) :
    (packComponents .binary64 s e m).toNat
      = (s.toBitVec.toNat * exponentRange + e.toNat) * fractionRange + m.toNat := by
  unfold packComponents
  rw [BitVec.toNat_append, BitVec.toNat_append, ← Nat.shiftLeft_add_eq_or_of_lt e.isLt,
    ← Nat.shiftLeft_add_eq_or_of_lt m.isLt, Nat.shiftLeft_eq, Nat.shiftLeft_eq]
  rfl

theorem unpackSign_packComponents (s : Float.Model.UnpackedFloat.Sign) (e : BitVec 11) (m : BitVec 52) :
    Sign.ofBitVec (unpackSign (packComponents .binary64 s e m)) = s := by
  have hsign : unpackSign (packComponents .binary64 s e m) = s.toBitVec := by
    apply BitVec.eq_of_toNat_eq
    have he := e.isLt
    have hm := m.isLt
    have hs := s.toBitVec.isLt
    have hb := toNat_packComponents s e m
    unfold unpackSign
    simp only [BitVec.toNat_cast, BitVec.extractLsb_toNat, Nat.shiftRight_eq_div_pow]
    rw [hb]
    simp only [exponentRange, fractionRange]
    omega
  rw [hsign]
  cases s <;> rfl

def exponentField (b : Binary) : Nat := if 2 ^ 52 ≤ b.mantissa then (b.exponent + 1075).toNat else 0

section
variable {b : Binary} {s : Float.Model.UnpackedFloat.Sign}

theorem log2_of_full (h : b.IsDouble) (hfull : 2 ^ 52 ≤ b.mantissa) : b.mantissa.log2 = 52 := by
  have hlow := (Nat.le_log2 (Nat.ne_of_gt h.pos)).mpr hfull
  have hhigh := (Nat.log2_lt (Nat.ne_of_gt h.pos)).mpr h.mantissa_lt
  omega

theorem log2_of_not_full (h : b.IsDouble) (hfull : ¬ 2 ^ 52 ≤ b.mantissa) : b.mantissa.log2 < 52 :=
  (Nat.log2_lt (Nat.ne_of_gt h.pos)).mpr (Nat.not_le.mp hfull)

theorem pack_isDouble (h : b.IsDouble) :
    UnpackedFloat.pack .binary64 (.finite s b.mantissa b.exponent h.pos)
      = packComponents .binary64 s (BitVec.ofNat 11 (exponentField b)) (BitVec.ofNat 52 b.mantissa) := by
  have hleast := h.least
  have hgreatest := h.greatest
  have hbias : b.exponent + Format.binary64.exponentBias + Format.binary64.mantissaBitsWithoutImplicit
      = b.exponent + 1075 := by
    show b.exponent + 1023 + 52 = _
    omega
  have hfits : ¬ 2 ^ 11 ≤ (b.exponent + 1075).toNat + 1 := by omega
  unfold UnpackedFloat.pack
  simp only [hbias]
  rw [if_neg hfits]
  by_cases hfull : 2 ^ 52 ≤ b.mantissa
  · have hlog := log2_of_full h hfull
    have hlong : 52 + 1 = Format.binary64.mantissaBits := rfl
    rw [hlog, if_pos hlong, exponentField, if_pos hfull]
  · have hlog := log2_of_not_full h hfull
    have hshort : ¬ b.mantissa.log2 + 1 = Format.binary64.mantissaBits := by
      show ¬ b.mantissa.log2 + 1 = 53
      omega
    rw [if_neg hshort, exponentField, if_neg hfull]

theorem finite_congr {m m' : Nat} {e e' : Int} {h : 0 < m} {h' : 0 < m'} (hm : m = m') (he : e = e') :
    UnpackedFloat.finite s m e h = .finite s m' e' h' := by
  subst hm he
  rfl

/-- A packed magnitude is unpacked again. -/
theorem unpack_pack (h : b.IsDouble) :
    UnpackedFloat.unpack .binary64 (UnpackedFloat.pack .binary64 (.finite s b.mantissa b.exponent h.pos))
      = .finite s b.mantissa b.exponent h.pos := by
  have hpos := h.pos
  have hlt := h.mantissa_lt
  have hleast := h.least
  have hgreatest := h.greatest
  rw [pack_isDouble h]
  generalize hbits : packComponents .binary64 s (BitVec.ofNat 11 (exponentField b))
    (BitVec.ofNat 52 b.mantissa) = bits
  have hsign : Sign.ofBitVec (unpackSign bits) = s := by rw [← hbits, unpackSign_packComponents]
  have hexponent : unpackExponent bits = BitVec.ofNat 11 (exponentField b) := by
    rw [← hbits, unpackExponent_packComponents]
  have hmantissa : unpackMantissa bits = BitVec.ofNat 52 b.mantissa := by
    rw [← hbits, unpackMantissa_packComponents]
  unfold UnpackedFloat.unpack
  dsimp only
  rw [hsign, hexponent]
  by_cases hfull : 2 ^ 52 ≤ b.mantissa
  · have hfield : (BitVec.ofNat 11 (exponentField b)).toNat = (b.exponent + 1075).toNat := by
      rw [exponentField, if_pos hfull, BitVec.toNat_ofNat]
      omega
    have hones : BitVec.ofNat 11 (exponentField b) ≠ -1#11 := by
      intro he
      have htop := congrArg BitVec.toNat he
      rw [hfield] at htop
      have htop : (b.exponent + 1075).toNat = 2047 := htop
      omega
    have hzero : BitVec.ofNat 11 (exponentField b) ≠ 0#11 := by
      intro he
      have htop := congrArg BitVec.toNat he
      rw [hfield] at htop
      have htop : (b.exponent + 1075).toNat = 0 := htop
      omega
    rw [if_neg hones, if_neg hzero]
    have hmant : (1#1 ++ unpackMantissa bits).toNat = b.mantissa := by
      rw [hmantissa, BitVec.toNat_append, ← Nat.shiftLeft_add_eq_or_of_lt (BitVec.isLt _), Nat.shiftLeft_eq,
        BitVec.toNat_ofNat]
      show 1 * 2 ^ 52 + b.mantissa % 2 ^ 52 = _
      omega
    refine finite_congr hmant ?_
    rw [hfield]
    show ((b.exponent + 1075).toNat : Int) - (1023 + 52) = _
    omega
  · have hexp : b.exponent = -1074 := h.full.resolve_left hfull
    have hmant : (unpackMantissa bits).toNat = b.mantissa := by
      rw [hmantissa, BitVec.toNat_ofNat]
      exact Nat.mod_eq_of_lt (Nat.not_le.mp hfull)
    have hzero : unpackMantissa bits ≠ 0#52 := by
      intro he
      have hm := congrArg BitVec.toNat he
      rw [hmant] at hm
      exact absurd hm (Nat.ne_of_gt hpos)
    rw [exponentField, if_neg hfull, if_neg (by decide), if_pos rfl, dif_neg hzero]
    refine finite_congr hmant ?_
    rw [hexp]
    rfl

end

theorem unpack_ofBinary {b : Binary} (h : b.IsDouble) (negative : Bool) :
    (ofBinary negative b h.pos).toModel.unpack = .finite (signOf negative) b.mantissa b.exponent h.pos :=
  unpack_pack h

/-- A double of the other sign. -/
theorem neg_ofBinary {b : Binary} (h : b.IsDouble) (negative : Bool) :
    -(ofBinary negative b h.pos) = ofBinary (!negative) b h.pos := by
  show Float.ofModel (.pack (ofBinary negative b h.pos).toModel.unpack.neg) = _
  rw [unpack_ofBinary h]
  cases negative <;> rfl

/-! ## the parts of a double -/

theorem ext_toNat {x y : Float} (h : x.toBits.toNat = y.toBits.toNat) : x = y := by
  obtain ⟨⟨bx, hx⟩⟩ := x
  obtain ⟨⟨by', hy⟩⟩ := y
  have hbits : bx = by' := UInt64.toNat_inj.mp h
  subst hbits
  rfl

theorem toNat_ofBinary {b : Binary} (h : b.IsDouble) (negative : Bool) :
    (ofBinary negative b h.pos).toBits.toNat
      = ((if negative then 1 else 0) * exponentRange + exponentField b) * fractionRange
        + b.mantissa % fractionRange := by
  have hgreatest := h.greatest
  have hsign : (signOf negative).toBitVec.toNat = if negative then 1 else 0 := by cases negative <;> rfl
  have hfield : exponentField b % 2 ^ 11 = exponentField b := by
    unfold exponentField
    split <;> omega
  show (UnpackedFloat.pack .binary64 (.finite (signOf negative) b.mantissa b.exponent h.pos)).toNat = _
  rw [pack_isDouble h, toNat_packComponents, hsign, BitVec.toNat_ofNat, BitVec.toNat_ofNat, hfield]
  rfl

/-- The parts of a double, from its fields. -/
theorem parts_eq_fields (x : Float) : ∃ S E F, S < 2 ∧ E < 2048 ∧ F < fractionRange ∧
    x.toBits.toNat = (S * exponentRange + E) * fractionRange + F ∧
    parts x = if E + 1 = exponentRange then
        if F = 0 then .infinite (S = 1 : Bool) else .notANumber
      else if E = 0 then
        if F = 0 then .zero (S = 1 : Bool) else .finite (S = 1 : Bool) ⟨F, -1074, false⟩
      else .finite (S = 1 : Bool) ⟨fractionRange + F, (E : Int) - 1075, F = 0 && E ≠ 1⟩ := by
  have hbits := x.toBits.toNat_lt
  refine ⟨x.toBits.toNat / (exponentRange * fractionRange), x.toBits.toNat / fractionRange % exponentRange,
    x.toBits.toNat % fractionRange, ?_, ?_, ?_, ?_, rfl⟩ <;> simp only [exponentRange, fractionRange] <;> omega

/-- A double is that of its parts. -/
theorem parts_eq_finite {x : Float} {negative : Bool} {b : Binary} (h : parts x = .finite negative b) :
    ∃ hb : b.IsDouble, x = ofBinary negative b hb.pos := by
  obtain ⟨S, E, F, hS, hE, hF, hx, hparts⟩ := parts_eq_fields x
  have hmod : F % fractionRange = F := Nat.mod_eq_of_lt hF
  have hF : F < 2 ^ 52 := hF
  have hsign : (if decide (S = 1) = true then 1 else 0) = S := by
    rcases Nat.le_one_iff_eq_zero_or_eq_one.mp (Nat.le_of_lt_succ hS) with rfl | rfl <;> rfl
  rw [hparts] at h
  by_cases htop : E + 1 = exponentRange
  · rw [if_pos htop] at h
    split at h <;> cases h
  rw [if_neg htop] at h
  have htop : ¬ E + 1 = 2048 := htop
  by_cases hzero : E = 0
  · rw [if_pos hzero] at h
    by_cases hfraction : F = 0
    · rw [if_pos hfraction] at h
      cases h
    rw [if_neg hfraction] at h
    cases h
    have hb : Binary.IsDouble ⟨F, -1074, false⟩ := by
      refine ⟨Nat.pos_of_ne_zero hfraction, ?_, Int.le_refl _, ?_, .inr rfl, by simp⟩ <;> simp only [] <;> omega
    refine ⟨hb, ext_toNat ?_⟩
    rw [hx, toNat_ofBinary hb, hsign, exponentField, if_neg (Nat.not_le.mpr hF), hzero, hmod]
  · rw [if_neg hzero] at h
    cases h
    have hb : Binary.IsDouble ⟨fractionRange + F, (E : Int) - 1075, decide (F = 0) && decide (E ≠ 1)⟩ := by
      refine ⟨?_, ?_, ?_, ?_, .inl ?_, ?_⟩ <;>
        simp only [fractionRange, Bool.and_eq_true, decide_eq_true_eq] <;> omega
    have hfull : 2 ^ 52 ≤ fractionRange + F := Nat.le_add_right _ F
    refine ⟨hb, ext_toNat ?_⟩
    rw [hx, toNat_ofBinary hb, hsign, exponentField, if_pos hfull, Nat.add_mod_left, hmod]
    simp

end Double

end PascalStack
