import PascalStack.Proofs.Number.Literal

/-!
# Decimals are read as magnitudes

* `Unsigned`          unpacked numbers that are not negative;
* `parts_ofDecimal`   a decimal is read as infinity, as zero or as a positive finite number;
* `literal_ofDecimal`   unless it is infinite, it is written as digits that are read as the same number.
-/

namespace PascalStack

open Float.Model Float.Model.UnpackedFloat

namespace Double

/-! ## the sign -/

/-- The unpacked numbers that are not negative. -/
def Unsigned : UnpackedFloat → Prop
  | .notANumber => False
  | .infinity s | .zero s | .finite s _ _ _ => s = .positive

theorem unsigned_dite {c : Prop} [Decidable c] {t : c → UnpackedFloat} {e : ¬ c → UnpackedFloat}
    (ht : ∀ h, Unsigned (t h)) (he : ∀ h, Unsigned (e h)) : Unsigned (dite c t e) := by
  by_cases h : c
  · rw [dif_pos h]
    exact ht h
  · rw [dif_neg h]
    exact he h

theorem unsigned_round (spec : Format) (m : Nat) (e : Int) (acc : Accuracy) :
    Unsigned (roundWithAccuracy spec .positive m e acc) := by
  unfold roundWithAccuracy
  exact unsigned_dite (fun _ => rfl) fun _ => rfl

theorem unsigned_mul (spec : Format) {m₁ m₂ : Nat} {e₁ e₂ : Int} (h₁ : 0 < m₁) (h₂ : 0 < m₂) :
    Unsigned (UnpackedFloat.mul spec (.finite .positive m₁ e₁ h₁) (.finite .positive m₂ e₂ h₂)) :=
  unsigned_round spec _ _ _

theorem unsigned_div (spec : Format) {m₁ m₂ : Nat} {e₁ e₂ : Int} (h₁ : 0 < m₁) (h₂ : 0 < m₂) :
    Unsigned (UnpackedFloat.div spec (.finite .positive m₁ e₁ h₁) (.finite .positive m₂ e₂ h₂)) :=
  unsigned_round spec _ _ _

theorem unsigned_ofScientific (spec : Format) (m : Nat) (e : Int) :
    Unsigned (UnpackedFloat.ofScientific spec m e) := by
  unfold UnpackedFloat.ofScientific
  refine unsigned_dite (fun _ => rfl) fun _ => ?_
  refine iteInduction (motive := Unsigned) (fun _ => rfl) fun _ => ?_
  refine iteInduction (motive := Unsigned) (fun _ => rfl) fun _ => ?_
  exact iteInduction (motive := Unsigned) (fun _ => unsigned_mul spec _ _) fun _ => unsigned_div spec _ _

/-- The bits of an unpacked number that is not negative are at most those of infinity. -/
theorem toNat_pack_le {u : UnpackedFloat} (h : Unsigned u) :
    (UnpackedFloat.pack .binary64 u).toNat ≤ 2047 * fractionRange := by
  cases u with
  | notANumber => exact h.elim
  | infinity s =>
    cases (h : s = .positive)
    decide
  | zero s =>
    cases (h : s = .positive)
    decide
  | finite s m e hpos =>
    cases (h : s = .positive)
    have hm := (BitVec.ofNat 52 m).isLt
    unfold UnpackedFloat.pack
    dsimp only
    split
    · decide
    · rename_i hexp
      have hexp : (e + 1023 + 52 : Int).toNat + 1 < 2048 := Nat.not_le.mp hexp
      have hsign : Sign.positive.toBitVec.toNat = 0 := rfl
      split
      · rw [toNat_packComponents, hsign, BitVec.toNat_ofNat]
        show _ + (BitVec.ofNat 52 m).toNat ≤ _
        simp only [exponentRange, fractionRange]
        show (0 * 2048 + (e + 1023 + 52 : Int).toNat % 2 ^ 11) * 2 ^ 52 + (BitVec.ofNat 52 m).toNat ≤ 2047 * 2 ^ 52
        omega
      · rw [toNat_packComponents, hsign]
        show (_ + (0#11).toNat) * _ + (BitVec.ofNat 52 m).toNat ≤ _
        rw [BitVec.toNat_zero]
        simp only [fractionRange]
        omega

theorem toNat_ofScientific_le (m : Nat) (s : Bool) (e : Nat) (hpos : 0 < m) :
    (Float.ofScientific m s e).toBits.toNat ≤ 2047 * fractionRange := by
  unfold Float.ofScientific
  split
  · rename_i hsmall
    have he : e < Float.exactlyRepresentablePowersOfTen.size := Nat.lt_succ_of_le hsmall.2
    obtain ⟨m₁, e₁, h₁, hu₁, -, -⟩ := exactly_toFloat hpos hsmall.1
    obtain ⟨m₂, e₂, h₂, hu₂, -, -⟩ := exactly_powerOfTen (Array.getElem?_eq_getElem he)
    have hmul : Unsigned (UnpackedFloat.mul .binary64 m.toUInt64.toFloat.toModel.unpack
        Float.exactlyRepresentablePowersOfTen[e].toModel.unpack) := by
      rw [hu₁, hu₂]
      exact unsigned_mul _ _ _
    have hdiv : Unsigned (UnpackedFloat.div .binary64 m.toUInt64.toFloat.toModel.unpack
        Float.exactlyRepresentablePowersOfTen[e].toModel.unpack) := by
      rw [hu₁, hu₂]
      exact unsigned_div _ _ _
    cases s with
    | true => exact toNat_pack_le hdiv
    | false => exact toNat_pack_le hmul
  · exact toNat_pack_le (unsigned_ofScientific _ _ _)

theorem toNat_ofDecimal_le (m : Nat) (e : Int) : (ofDecimal m e).toBits.toNat ≤ 2047 * fractionRange := by
  unfold ofDecimal
  dsimp only
  split
  · decide +kernel
  · rename_i hsome
    split
    · decide
    · exact toNat_ofScientific_le _ _ _ (Nat.pos_of_ne_zero fun h => hsome (.inl h))

/-- A decimal is read as infinity, as zero or as a positive finite number. -/
theorem parts_ofDecimal (m : Nat) (e : Int) : parts (ofDecimal m e) = .infinite false ∨
    parts (ofDecimal m e) = .zero false ∨ ∃ b, parts (ofDecimal m e) = .finite false b := by
  have hle := toNat_ofDecimal_le m e
  obtain ⟨S, E, F, hS, hE, hF, hx, hparts⟩ := parts_eq_fields (ofDecimal m e)
  rw [hx] at hle
  simp only [exponentRange, fractionRange] at hle hF
  have hsign : S = 0 := by omega
  subst hsign
  rw [hparts]
  by_cases htop : E + 1 = exponentRange
  · have hzero : F = 0 := by simp only [exponentRange] at htop; omega
    rw [if_pos htop, if_pos hzero]
    exact .inl rfl
  · rw [if_neg htop]
    split
    · split
      · exact .inr (.inl rfl)
      · exact .inr (.inr ⟨_, rfl⟩)
    · exact .inr (.inr ⟨_, rfl⟩)

theorem eq_zero {x : Float} (h : parts x = .zero false) : x = Float.ofBits 0 := by
  obtain ⟨S, E, F, hS, hE, hF, hx, hparts⟩ := parts_eq_fields x
  rw [hparts] at h
  split at h
  · split at h <;> cases h
  · split at h
    · split at h
      · rename_i hE hF
        have hS : S = 0 := by
          injection h with hS
          have := of_decide_eq_false hS
          omega
        subst hS hE hF
        exact ext_toNat hx
      · cases h
    · cases h

/-- Unless it is infinite, the number that a decimal is read as is written as digits with a point among them,
which are read as the same number. -/
theorem literal_ofDecimal (m : Nat) (e : Int) :
    (parts (ofDecimal m e) = .infinite false ∧ literal (ofDecimal m e) = "inf") ∨
    (∀ negative, parts (ofDecimal m e) ≠ .infinite negative) ∧
      ∃ w f, (literal (ofDecimal m e)).toList = w ++ '.' :: f ∧ w ≠ [] ∧ f ≠ [] ∧
        (∀ c ∈ w, c.isDigit = true) ∧ (∀ c ∈ f, c.isDigit = true) ∧ ofDigits w f = ofDecimal m e := by
  rcases parts_ofDecimal m e with h | h | ⟨b, h⟩
  · refine .inl ⟨h, ?_⟩
    simp only [literal, isFinite, plain, h]
    rfl
  · have hzero : ∀ c ∈ ['0'], c.isDigit = true := by
      intro c hc
      rw [List.mem_singleton.mp hc]
      rfl
    refine .inr ⟨fun negative hinf => Parts.noConfusion (h.symm.trans hinf), ['0'], ['0'], ?_,
      List.cons_ne_nil _ _, List.cons_ne_nil _ _, hzero, hzero, ?_⟩
    · simp only [literal, isFinite, plain, h]
      rfl
    · rw [eq_zero h]
      exact ext_toNat (by decide +kernel)
  · obtain ⟨hb, hx⟩ := parts_eq_finite h
    obtain ⟨w, f, htext, hw, hf, hdw, hdf, hvalue⟩ := pointed_positional (b.shortest .up)
    refine .inr ⟨fun negative hinf => Parts.noConfusion (h.symm.trans hinf), w, f, ?_, hw, hf, hdw, hdf, ?_⟩
    · rw [literal_of_finite h, if_neg Bool.false_ne_true, List.nil_append, htext]
    · have hnear := b.shortest_near hb .up
      rw [hvalue] at hnear
      exact (ofDecimal_near hb hnear).trans hx.symm

end Double

end PascalStack
