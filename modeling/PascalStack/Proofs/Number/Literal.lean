import PascalStack.Proofs.Machine.Operands
import PascalStack.Proofs.Number.Reading
import PascalStack.Proofs.Number.Shortest

/-!
# Real constants are read back from their texts

* `Pointed`          digits, a point and digits, and the number they stand for;
* `pointed_positional`  the text of a decimal is of that form and stands for the decimal;
* `Pointed.read`     such a text is read as the magnitude it is near to;
* `read?_literal`    the text of a double is read as that double.
-/

namespace PascalStack.Double

/-! ## digits with a point -/

/-- A text of digits with a point among them, and the number it stands for. -/
def Pointed (cs : List Char) (v : ℚ) : Prop :=
  ∃ w f, cs = w ++ '.' :: f ∧ w ≠ [] ∧ f ≠ [] ∧ (∀ c ∈ w, c.isDigit = true) ∧
    (∀ c ∈ f, c.isDigit = true) ∧ v = Nat.ofDigitChars 10 (w ++ f) 0 * 10 ^ (-f.length : Int)

theorem isDigit_of_mem_toDigits {n : Nat} {c : Char} (h : c ∈ Nat.toDigits 10 n) : c.isDigit = true :=
  Nat.isDigit_of_mem_toDigits (by decide) (by decide) h

theorem isDigit_of_mem_zeros {n : Nat} {c : Char} (h : c ∈ List.replicate n '0') : c.isDigit = true := by
  rw [List.eq_of_mem_replicate h]
  decide

theorem not_mem_point {cs : List Char} (h : ∀ c ∈ cs, c.isDigit = true) : cs.contains '.' = false := by
  rw [List.contains_eq_mem, decide_eq_false_iff_not]
  intro hmem
  have := h '.' hmem
  exact absurd this (by decide)

/-- A text that has no point gets one, with a zero after it. -/
theorem withPoint_digits {cs : List Char} (h : ∀ c ∈ cs, c.isDigit = true) :
    (withPoint (String.ofList cs)).toList = cs ++ ['.', '0'] := by
  unfold withPoint
  rw [String.toList_ofList, not_mem_point h, if_neg (by decide), String.toList_append, String.toList_ofList]
  rfl

theorem withPoint_pointed (w f : List Char) :
    (withPoint (String.ofList (w ++ '.' :: f))).toList = w ++ '.' :: f := by
  unfold withPoint
  rw [String.toList_ofList, if_pos (by simp)]
  exact String.toList_ofList

section
variable {ds : List Char} {n k : Nat}

/-- An integer has zeros up to the point, and one after it. -/
theorem pointed_integer (hne : ds ≠ []) (hdigits : ∀ c ∈ ds, c.isDigit = true)
    (hvalue : Nat.ofDigitChars 10 ds 0 = n) :
    Pointed (ds ++ List.replicate k '0' ++ ['.', '0']) (n * 10 ^ (k : Int)) := by
  refine ⟨ds ++ List.replicate k '0', ['0'], rfl, List.append_ne_nil_of_left_ne_nil hne _,
    List.cons_ne_nil _ _, List.forall_mem_append.mpr ⟨hdigits, fun c => isDigit_of_mem_zeros⟩,
    fun c => isDigit_of_mem_zeros (n := 1), ?_⟩
  rw [Nat.ofDigitChars_append, Nat.ofDigitChars_append, hvalue, Nat.ofDigitChars_replicate_zero]
  show _ = ((Nat.ofDigitChars 10 ['0'] (10 ^ k * n) : Nat) : ℚ) * 10 ^ (-1 : Int)
  rw [Nat.ofDigitChars_cons, Nat.ofDigitChars_nil]
  push_cast
  rw [zpow_natCast]
  norm_num
  ring

/-- The point falls among the digits. -/
theorem pointed_among (hk : k ≠ 0) (hlen : k < ds.length) (hdigits : ∀ c ∈ ds, c.isDigit = true)
    (hvalue : Nat.ofDigitChars 10 ds 0 = n) :
    Pointed (ds.take (ds.length - k) ++ '.' :: ds.drop (ds.length - k)) (n * 10 ^ (-k : Int)) := by
  have hwhole : (ds.take (ds.length - k)).length = ds.length - k := by
    rw [List.length_take]
    omega
  have hfraction : (ds.drop (ds.length - k)).length = k := by
    rw [List.length_drop]
    omega
  refine ⟨_, _, rfl, List.ne_nil_of_length_pos (by omega), List.ne_nil_of_length_pos (by omega),
    fun c hc => hdigits c (List.mem_of_mem_take hc), fun c hc => hdigits c (List.mem_of_mem_drop hc), ?_⟩
  rw [List.take_append_drop, hvalue, hfraction]

/-- There are zeros between the point and the digits. -/
theorem pointed_fraction (hne : ds ≠ []) (hlen : ds.length ≤ k) (hdigits : ∀ c ∈ ds, c.isDigit = true)
    (hvalue : Nat.ofDigitChars 10 ds 0 = n) :
    Pointed ('0' :: '.' :: (List.replicate (k - ds.length) '0' ++ ds)) (n * 10 ^ (-k : Int)) := by
  have hlength : (List.replicate (k - ds.length) '0' ++ ds).length = k := by
    rw [List.length_append, List.length_replicate]
    omega
  have hzero : Nat.ofDigitChars 10 ['0'] 0 = 0 := rfl
  refine ⟨['0'], List.replicate (k - ds.length) '0' ++ ds, rfl, List.cons_ne_nil _ _,
    List.append_ne_nil_of_right_ne_nil _ hne, fun c => isDigit_of_mem_zeros (n := 1),
    List.forall_mem_append.mpr ⟨fun c => isDigit_of_mem_zeros, hdigits⟩, ?_⟩
  rw [Nat.ofDigitChars_append, Nat.ofDigitChars_append, hzero, Nat.ofDigitChars_replicate_zero,
    Nat.mul_zero, hvalue, hlength]

end

/-- The positional text of a decimal, with a point, stands for it. -/
theorem pointed_positional (d : Decimal) : Pointed (withPoint (positional d)).toList d.rat := by
  have hdigits : ∀ c ∈ Nat.toDigits 10 d.digits, c.isDigit = true := fun c => isDigit_of_mem_toDigits
  have hvalue : Nat.ofDigitChars 10 (Nat.toDigits 10 d.digits) 0 = d.digits := Nat.ofDigitChars_ten_toDigits
  have hne : Nat.toDigits 10 d.digits ≠ [] := Nat.toDigits_ne_nil
  unfold positional Decimal.rat
  generalize Nat.toDigits 10 d.digits = ds at hdigits hvalue hne
  by_cases hexp : 0 ≤ d.exponent
  · obtain ⟨k, hk⟩ := Int.eq_ofNat_of_zero_le hexp
    have hall : ∀ c ∈ ds ++ List.replicate k '0', c.isDigit = true :=
      List.forall_mem_append.mpr ⟨hdigits, fun c => isDigit_of_mem_zeros⟩
    simp only [hk, Int.natCast_nonneg, if_true, Int.toNat_natCast]
    rw [withPoint_digits hall]
    exact pointed_integer hne hdigits hvalue
  · obtain ⟨k, hk⟩ : ∃ k : Nat, d.exponent = -k := ⟨(-d.exponent).toNat, by omega⟩
    have hplaces : (-d.exponent).toNat = k := by omega
    rw [if_neg hexp, hplaces, hk]
    by_cases hlen : k < ds.length
    · rw [if_pos hlen, withPoint_pointed]
      exact pointed_among (by omega) hlen hdigits hvalue
    · rw [if_neg hlen]
      exact (withPoint_pointed ['0'] _).symm ▸ pointed_fraction hne (by omega) hdigits hvalue

section
variable {cs : List Char} {v : ℚ}

theorem Pointed.head (h : Pointed cs v) : ∃ c r, cs = c :: r ∧ c.isDigit = true := by
  obtain ⟨w, f, rfl, hne, -, hw, -, -⟩ := h
  obtain ⟨c, w, rfl⟩ := List.exists_cons_of_ne_nil hne
  exact ⟨c, w ++ '.' :: f, rfl, hw c List.mem_cons_self⟩

theorem Pointed.isBlank (h : Pointed cs v) {c : Char} (hc : c ∈ cs) : Text.isBlank c = false := by
  obtain ⟨w, f, rfl, -, -, hw, hf, -⟩ := h
  rcases List.mem_append.mp hc with hc | hc
  · exact Text.isBlank_of_isDigit (hw c hc)
  · rcases List.mem_cons.mp hc with rfl | hc
    · decide
    · exact Text.isBlank_of_isDigit (hf c hc)

/-- Such a text is read as the magnitude it is near to. -/
theorem Pointed.magnitude {b : Binary} (h : Pointed cs v) (hb : b.IsDouble) (hnear : b.Near v) :
    magnitude? cs = some (ofBinary false b hb.pos) := by
  obtain ⟨w, f, rfl, hne, -, hw, hf, rfl⟩ := h
  have hwhole : (w ++ '.' :: f).takeWhile Char.isDigit = w := by
    rw [List.takeWhile_append_of_pos hw, List.takeWhile_cons_of_neg (by decide), List.append_nil]
  have hrest : (w ++ '.' :: f).dropWhile Char.isDigit = '.' :: f := by
    rw [List.dropWhile_append_of_pos hw, List.dropWhile_cons_of_neg (by decide)]
  have hfraction : f.takeWhile Char.isDigit = f := by
    rw [← List.append_nil f, List.takeWhile_append_of_pos hf, List.takeWhile_nil]
  have hend : f.dropWhile Char.isDigit = [] := by
    rw [← List.append_nil f, List.dropWhile_append_of_pos hf, List.dropWhile_nil]
  have hsome : w.isEmpty = false := List.isEmpty_eq_false_iff.mpr hne
  unfold magnitude?
  simp only [hwhole, hrest, hfraction, hend, hsome, Bool.false_and, Bool.false_eq_true, if_false]
  show some (ofDecimal _ (0 - (f.length : Int))) = _
  rw [Int.zero_sub, ofDecimal_near hb hnear]

theorem unsigned?_of_digit {c : Char} {r : List Char} (hc : c.isDigit = true) :
    unsigned? (c :: r) = magnitude? (c :: r) := by
  have hlower : c.toLower.isDigit = true := by
    have hrange := hc
    simp only [Char.isDigit, Bool.and_eq_true, decide_eq_true_eq] at hrange
    have hupper : ¬ (c.val ≥ 'A'.val ∧ c.val ≤ 'Z'.val) := by
      intro hupper
      exact absurd (UInt32.le_trans hupper.1 hrange.2) (by decide)
    unfold Char.toLower
    rw [dif_neg hupper]
    exact hc
  have hname : ∀ (d : Char) (ds : List Char), d.isDigit = false →
      String.ofList ((c :: r).map Char.toLower) ≠ String.ofList (d :: ds) := by
    intro d ds hd heq
    have hlist := String.ofList_injective heq
    rw [List.map_cons] at hlist
    injection hlist with hhead
    rw [hhead, hd] at hlower
    cases hlower
  unfold unsigned?
  rw [if_neg, if_neg]
  · exact hname 'n' ['a', 'n'] (by decide)
  · exact not_or.mpr ⟨hname 'i' ['n', 'f'] (by decide), hname 'i' ['n', 'f', 'i', 'n', 'i', 't', 'y'] (by decide)⟩

theorem Pointed.read {b : Binary} (h : Pointed cs v) (hb : b.IsDouble) (hnear : b.Near v) (negative : Bool) :
    read? ((if negative then ['-'] else []) ++ cs) = some (ofBinary negative b hb.pos) := by
  have hmagnitude := h.magnitude hb hnear
  obtain ⟨c, r, rfl, hc⟩ := h.head
  rw [← unsigned?_of_digit hc] at hmagnitude
  cases negative with
  | true =>
    show (unsigned? (c :: r)).map (fun x => -x) = _
    rw [hmagnitude, Option.map_some, neg_ofBinary hb]
    rfl
  | false =>
    show read? (c :: r) = _
    unfold read?
    split
    · rename_i heq
      cases heq
      exact absurd hc (by decide)
    · rename_i heq
      cases heq
      exact absurd hc (by decide)
    · exact hmagnitude

end

/-! ## the texts of doubles -/

theorem toList_signed (negative : Bool) (text : String) :
    (signed negative text).toList = (if negative then ['-'] else []) ++ text.toList := by
  cases negative with
  | true =>
    show ("-" ++ text).toList = _
    rw [String.toList_append]
    rfl
  | false => rfl

theorem withPoint_signed (negative : Bool) (text : String) :
    withPoint (signed negative text) = signed negative (withPoint text) := by
  cases negative with
  | true =>
    show withPoint ("-" ++ text) = "-" ++ withPoint text
    have hmem : ("-" ++ text).toList.contains '.' = text.toList.contains '.' := by
      rw [String.toList_append]
      rfl
    unfold withPoint
    rw [hmem]
    split
    · rfl
    · exact String.append_assoc
  | false => rfl

theorem literal_of_finite {x : Float} {negative : Bool} {b : Binary} (h : parts x = .finite negative b) :
    (literal x).toList = (if negative then ['-'] else []) ++ (withPoint (positional (b.shortest .up))).toList := by
  unfold literal isFinite plain
  simp only [h, if_true]
  rw [withPoint_signed, toList_signed]

/-- There is one double that is not a number. -/
theorem eq_notANumber {x : Float} (h : parts x = .notANumber) : x = notANumber := by
  obtain ⟨S, E, F, hS, hE, hF, hx, hparts⟩ := parts_eq_fields x
  rw [hparts] at h
  by_cases htop : E + 1 = exponentRange
  · rw [if_pos htop] at h
    have hfraction : F ≠ 0 := by
      intro hzero
      rw [if_pos hzero] at h
      cases h
    obtain ⟨⟨bits, hvalid⟩⟩ := x
    have hx : bits.toNat = (S * exponentRange + E) * fractionRange + F := hx
    simp only [exponentRange, fractionRange] at hx hF htop
    have hexp : @Float.Model.UnpackedFloat.unpackExponent .binary64 bits.toBitVec = -1#11 := by
      apply BitVec.eq_of_toNat_eq
      unfold Float.Model.UnpackedFloat.unpackExponent
      show (bits.toBitVec.extractLsb' 52 11).toNat = 2047
      rw [BitVec.extractLsb'_toNat, Nat.shiftRight_eq_div_pow, UInt64.toNat_toBitVec]
      omega
    have hmant : @Float.Model.UnpackedFloat.unpackMantissa .binary64 bits.toBitVec ≠ 0#52 := by
      intro hzero
      have hzero := congrArg BitVec.toNat hzero
      have hzero : (bits.toBitVec.extractLsb' 0 52).toNat = 0 := hzero
      rw [BitVec.extractLsb'_toNat, Nat.shiftRight_zero, UInt64.toNat_toBitVec] at hzero
      omega
    have hbits := hvalid.eq_packedNaN hexp hmant
    apply ext_toNat
    show bits.toBitVec.toNat = _
    rw [hbits]
    rfl
  · rw [if_neg htop] at h
    split at h <;> (try split at h) <;> cases h

/-- The texts of doubles that are zero or not finite, and their bits. -/
theorem literal_cases (x : Float) : (∃ negative b, parts x = .finite negative b) ∨
    (literal x = "NaN" ∧ x = notANumber) ∨ (literal x = "inf" ∧ x = infinity) ∨
    (literal x = "-inf" ∧ x = -infinity) ∨ (literal x = "0.0" ∧ x = Float.ofBits 0) ∨
    (literal x = "-0.0" ∧ x = Float.ofBits 0x8000000000000000) := by
  have hnan := eq_notANumber (x := x)
  obtain ⟨S, E, F, hS, hE, hF, hx, hparts⟩ := parts_eq_fields x
  have hS : S = 0 ∨ S = 1 := by omega
  unfold literal isFinite plain
  by_cases htop : E + 1 = exponentRange
  · rw [if_pos htop] at hparts
    have hE : E = 2047 := Nat.succ.inj htop
    by_cases hzero : F = 0
    · rw [if_pos hzero] at hparts
      subst hzero hE
      rcases hS with rfl | rfl
      · refine .inr (.inr (.inl ⟨?_, ext_toNat hx⟩))
        rw [hparts]
        rfl
      · refine .inr (.inr (.inr (.inl ⟨?_, ext_toNat (hx.trans ?_)⟩)))
        · rw [hparts]
          rfl
        · decide +kernel
    · rw [if_neg hzero] at hparts
      refine .inr (.inl ⟨?_, hnan hparts⟩)
      rw [hparts]
      rfl
  · rw [if_neg htop] at hparts
    by_cases hsmall : E = 0
    · rw [if_pos hsmall] at hparts
      by_cases hzero : F = 0
      · rw [if_pos hzero] at hparts
        subst hzero hsmall
        rcases hS with rfl | rfl
        · refine .inr (.inr (.inr (.inr (.inl ⟨?_, ext_toNat hx⟩))))
          rw [hparts]
          rfl
        · refine .inr (.inr (.inr (.inr (.inr ⟨?_, ext_toNat hx⟩))))
          rw [hparts]
          rfl
      · rw [if_neg hzero] at hparts
        exact .inl ⟨_, _, hparts⟩
    · rw [if_neg hsmall] at hparts
      exact .inl ⟨_, _, hparts⟩

/-- The text of a double is read as that double. -/
theorem read?_literal (x : Float) : read? (literal x).toList = some x := by
  rcases literal_cases x with ⟨negative, b, h⟩ | ⟨ht, rfl⟩ | ⟨ht, rfl⟩ | ⟨ht, rfl⟩ | ⟨ht, rfl⟩ | ⟨ht, rfl⟩
  · obtain ⟨hb, rfl⟩ := parts_eq_finite h
    rw [literal_of_finite h]
    exact (pointed_positional _).read hb (b.shortest_near hb .up) negative
  all_goals rw [ht]
  · rfl
  · rfl
  · rfl
  · refine congrArg some (ext_toNat ?_)
    decide +kernel
  · refine congrArg some (ext_toNat ?_)
    decide +kernel

theorem literal_ne_nil (x : Float) : (literal x).toList ≠ [] := by
  intro h
  have hread := read?_literal x
  rw [h] at hread
  cases hread

theorem isBlank_literal {x : Float} {c : Char} (h : c ∈ (literal x).toList) :
    Text.isBlank c = false := by
  rcases literal_cases x with ⟨negative, b, hparts⟩ | ⟨ht, -⟩ | ⟨ht, -⟩ | ⟨ht, -⟩ | ⟨ht, -⟩ | ⟨ht, -⟩
  · rw [literal_of_finite hparts] at h
    rcases List.mem_append.mp h with h | h
    · cases negative with
      | true =>
        rw [List.mem_singleton.mp h]
        decide
      | false => cases h
    · exact (pointed_positional _).isBlank h
  all_goals
    have hall : (literal x).toList.all (fun c => !Text.isBlank c) = true := by rw [ht]; decide
    have hc := List.all_eq_true.mp hall c h
    exact (Bool.not_eq_true' _).mp hc

end PascalStack.Double
