import PascalStack.Machine.Image

/-!
# Operands are read back from their texts

* `Text.Solid`           text without blanks at its ends, which `Text.trim` keeps;
* `unsigned?_naturalText`, `signed?_integerText`   numbers;
* `quoted?_quote`        strings.
-/

namespace PascalStack

namespace Text

/-- Text that neither starts nor ends with a blank. -/
structure Solid (cs : List Char) : Prop where
  first : ∃ c, cs.head? = some c ∧ isBlank c = false
  last : ∃ c, cs.getLast? = some c ∧ isBlank c = false

section
variable {cs : List Char}

theorem dropWhile_isBlank {c : Char} (hc : cs.head? = some c) (h : isBlank c = false) :
    cs.dropWhile isBlank = cs := by
  obtain ⟨rest, rfl⟩ := List.head?_eq_some_iff.mp hc
  rw [List.dropWhile_cons, h]
  rfl

theorem Solid.trim (h : Solid cs) : trim cs = cs := by
  obtain ⟨c, hc, hblank⟩ := h.first
  obtain ⟨d, hd, hblank'⟩ := h.last
  unfold Text.trim trimStart trimEnd
  rw [dropWhile_isBlank hc hblank]
  rw [dropWhile_isBlank (List.head?_reverse.trans hd) hblank', List.reverse_reverse]

theorem Solid.ne_nil (h : Solid cs) : cs ≠ [] := by
  rintro rfl
  obtain ⟨c, hc, _⟩ := h.first
  cases hc

theorem Solid.of_word (hne : cs ≠ []) (h : ∀ c ∈ cs, isBlank c = false) : Solid cs := by
  refine ⟨⟨cs.head hne, List.head?_eq_some_head hne, h _ (List.head_mem hne)⟩,
    cs.getLast hne, List.getLast?_eq_some_getLast hne, h _ (List.getLast_mem hne)⟩

end

theorem isBlank_of_isDigit {c : Char} (h : c.isDigit = true) : isBlank c = false := by
  have hc : 48 ≤ c.toNat ∧ c.toNat ≤ 57 := Char.isDigit_iff_toNat.mp h
  unfold isBlank
  simp only [Bool.or_eq_false_iff, Bool.and_eq_false_iff, decide_eq_false_iff_not]
  omega

end Text

/-! ## numbers -/

theorem isDigit_of_mem_naturalText {n : Nat} {c : Char} (h : c ∈ (naturalText n).toList) :
    c.isDigit = true := by
  unfold naturalText at h
  rw [Nat.toList_repr] at h
  exact Nat.isDigit_of_mem_toDigits (by decide) (by decide) h

theorem natural?_naturalText (n : Nat) : natural? (naturalText n).toList = some n := by
  have hall : (naturalText n).toList.all Char.isDigit = true :=
    List.all_eq_true.mpr fun c hc => isDigit_of_mem_naturalText hc
  have hne : (naturalText n).toList.isEmpty = false := by
    rw [naturalText, Nat.toList_repr, List.isEmpty_eq_false_iff]
    exact Nat.toDigits_ne_nil
  unfold natural?
  rw [hall, hne, naturalText, Nat.toList_repr, Nat.ofDigitChars_ten_toDigits]
  rfl

/-- A number starts with a digit and not with a sign. -/
theorem naturalText_ne_cons {n : Nat} {c : Char} (hc : c.isDigit = false) (ds : List Char) :
    (naturalText n).toList ≠ c :: ds := by
  intro h
  have hmem : c ∈ (naturalText n).toList := h ▸ List.mem_cons_self ..
  rw [isDigit_of_mem_naturalText hmem] at hc
  cases hc

theorem unsigned?_naturalText {n : Nat} (h : n < wordSize) :
    unsigned? (naturalText n).toList = some n := by
  unfold unsigned?
  split
  · rename_i hcons
    exact absurd hcons (naturalText_ne_cons (by decide) _)
  · show (natural? (naturalText n).toList).bind _ = _
    rw [natural?_naturalText, Option.bind_some, if_pos h]

theorem machineInteger?_toInt (n : Int64) : machineInteger? n.toInt = some n := by
  unfold machineInteger?
  rw [if_pos ⟨n.le_toInt, Int.le_of_lt_add_one n.toInt_lt⟩, Int64.ofInt_toInt]

theorem signed?_integerText (n : Int64) : signed? (integerText n).toList = some n := by
  have hn := machineInteger?_toInt n
  unfold integerText
  generalize n.toInt = z at hn
  cases z with
  | ofNat m =>
    show signed? (naturalText m).toList = _
    unfold signed?
    split
    · rename_i hcons
      exact absurd hcons (naturalText_ne_cons (by decide) _)
    · rename_i hcons
      exact absurd hcons (naturalText_ne_cons (by decide) _)
    · rw [natural?_naturalText, Option.bind_some]
      exact hn
  | negSucc m =>
    show signed? ("-" ++ naturalText (m + 1)).toList = _
    rw [String.toList_append]
    show (natural? (naturalText (m + 1)).toList).bind (fun k => machineInteger? (-k)) = _
    rw [natural?_naturalText, Option.bind_some]
    exact hn

theorem Text.solid_naturalText (n : Nat) : Solid (naturalText n).toList := by
  refine .of_word ?_ fun c hc => isBlank_of_isDigit (isDigit_of_mem_naturalText hc)
  rw [naturalText, Nat.toList_repr]
  exact Nat.toDigits_ne_nil

theorem integerText_ne_nil (n : Int64) : (integerText n).toList ≠ [] := by
  unfold integerText
  cases n.toInt with
  | ofNat m => exact (Text.solid_naturalText m).ne_nil
  | negSucc m =>
    show ("-" ++ naturalText (m + 1)).toList ≠ []
    rw [String.toList_append]
    exact List.append_ne_nil_of_left_ne_nil (by decide) _

theorem Text.isBlank_integerText {n : Int64} {c : Char} (hc : c ∈ (integerText n).toList) :
    isBlank c = false := by
  unfold integerText at hc
  generalize n.toInt = z at hc
  cases z with
  | ofNat m => exact isBlank_of_isDigit (isDigit_of_mem_naturalText hc)
  | negSucc m =>
    have hc : c ∈ ("-" ++ naturalText (m + 1)).toList := hc
    rw [String.toList_append] at hc
    rcases List.mem_append.mp hc with hc | hc
    · rcases List.mem_singleton.mp hc with rfl
      decide
    · exact isBlank_of_isDigit (isDigit_of_mem_naturalText hc)

/-! ## strings -/

namespace Code

theorem unescape?_escape (cs : List Char) : unescape? (escape cs) = some cs := by
  induction cs with
  | nil => rfl
  | cons c cs ih =>
    unfold escape
    split
    · rw [unescape?, ih]; rfl
    · rw [unescape?, ih]; rfl
    · rw [unescape?, ih]; rfl
    · rw [unescape?, ih]; rfl
    · rw [unescape?, ih]; rfl
    · -- a character that is written as it is
      rename_i hslash _ _ _ _
      rw [unescape?, ih]
      · rfl
      · exact fun hc _ => hslash hc
      · exact fun _ _ hc _ => hslash hc

theorem beforeQuote?_append (cs : List Char) : beforeQuote? (cs ++ ['"']) = some cs := by
  induction cs with
  | nil => rfl
  | cons c cs ih =>
    rw [List.cons_append, beforeQuote?, ih]
    · rfl
    · intro _ h
      simp at h

theorem quoted?_quote (text : String) : quoted? (quote text) = some text := by
  unfold quoted? quote
  rw [String.toList_ofList]
  show ((beforeQuote? (escape text.toList ++ ['"'])).bind unescape?).map String.ofList = _
  rw [beforeQuote?_append, Option.bind_some, unescape?_escape, Option.map_some, String.ofList_toList]

theorem newline_not_mem_escape (cs : List Char) : '\n' ∉ escape cs := by
  induction cs with
  | nil => exact List.not_mem_nil
  | cons c cs ih =>
    unfold escape
    split
    all_goals simp_all [List.mem_cons]
    rename_i h _ _
    exact fun hc => h hc.symm

theorem newline_not_mem_quote (text : String) : '\n' ∉ (quote text).toList := by
  unfold quote
  rw [String.toList_ofList]
  simp [newline_not_mem_escape]

theorem solid_quote (text : String) : Text.Solid (quote text).toList := by
  unfold quote
  rw [String.toList_ofList]
  refine ⟨⟨'"', rfl, by decide⟩, '"', ?_, by decide⟩
  rw [← List.cons_append, List.getLast?_append]
  rfl

end Code

end PascalStack
