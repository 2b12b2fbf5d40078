import PascalStack.Proofs.Token.Pieces

/-!
# How tokens are written

What the first piece of a text is, said without the lexer: a token is a text that spells it, and what comes
after does not go on with it.

* `Written`        the texts that spell a token;
* `Token.stops`    a text does not go on with a token before it;
* `Piece.first_written`, `Piece.written_first`   the first piece is a token iff it is written there;
* `ClosedComment`  the texts of comments, and the same for them;
* `marks`          the tokens and illegal characters of a text with their lines, and the rules that compute
                   them from the left.
-/

namespace PascalStack

inductive Written : Token → List Char → Prop
  | word {c : Char} {w : List Char} (hc : isWordStart c = true) (hw : ∀ d ∈ w, isWordPart d = true) :
      Written (.ofWord (c :: w)) (c :: w)
  | integer {c : Char} {ds : List Char} {n : Int64} (hds : ∀ d ∈ c :: ds, d.isDigit = true)
      (hn : machineInteger? (Nat.ofDigitChars 10 (c :: ds) 0) = some n) : Written (.integer n) (c :: ds)
  | real {c d : Char} {w f : List Char} (hw : ∀ x ∈ c :: w, x.isDigit = true)
      (hf : ∀ x ∈ d :: f, x.isDigit = true) :
      Written (.real (Double.ofDigits (c :: w) (d :: f))) (c :: w ++ '.' :: d :: f)
  | string (s : List Char) : Written (.string (String.ofList s)) ('\'' :: (doubleQuotes s ++ ['\'']))
  | punct (p : Punct) : Written (.punct p) p.text.toList

theorem Written.ne_nil {t : Token} {text : List Char} (h : Written t text) : text ≠ [] := by
  cases h with
  | word | integer | real | string => exact List.cons_ne_nil _ _
  | punct p => cases p <;> decide

/-- The characters with which a sign would be another one, or open a comment. -/
def Punct.goesOn : Punct → Char → Bool
  | .colon, c => c = '='
  | .dot, c => c = '.'
  | .star, c => c = '*'
  | .less, c => c = '>' || c = '='
  | .greater, c => c = '='
  | .leftParen, c => c = '*'
  | _, _ => false

/-- A text does not go on with the token before it. -/
def Token.stops : Token → List Char → Prop
  | .keyword _, rest => ∀ c ∈ rest.head?, isWordPart c = false
  | .identifier _, rest => ∀ c ∈ rest.head?, isWordPart c = false
  | .integer _, rest => (∀ c ∈ rest.head?, c.isDigit = false) ∧
      ∀ d r, rest = '.' :: d :: r → d.isDigit = false
  | .real _, rest => ∀ c ∈ rest.head?, c.isDigit = false
  | .string _, rest => rest.head? ≠ some '\''
  | .punct p, rest => ∀ c ∈ rest.head?, p.goesOn c = false

theorem Token.stops_nil (t : Token) : t.stops [] := by
  cases t with
  | integer n => exact ⟨by simp, by simp⟩
  | _ => simp [Token.stops]

def Punct.chars : Punct → List Char
  | .assign => [':', '='] | .colon => [':'] | .semicolon => [';'] | .dot => ['.'] | .comma => [',']
  | .dotDot => ['.', '.'] | .plus => ['+'] | .minus => ['-'] | .star => ['*'] | .slash => ['/']
  | .starStar => ['*', '*'] | .upArrow => ['^'] | .equal => ['='] | .notEqual => ['<', '>']
  | .less => ['<'] | .greater => ['>'] | .lessEqual => ['<', '='] | .greaterEqual => ['>', '=']
  | .leftParen => ['('] | .rightParen => [')'] | .leftBracket => ['['] | .rightBracket => [']']

theorem Punct.toList_text (p : Punct) : p.text.toList = p.chars := by
  cases p <;> rfl

theorem Token.stops_ofWord {w rest : List Char} :
    (Token.ofWord w).stops rest ↔ ∀ c ∈ rest.head?, isWordPart c = false := by
  unfold Token.ofWord
  split <;> exact Iff.rfl

/-! ## kinds of characters -/

theorem isGap_of_isWordStart {c : Char} (h : isWordStart c = true) : isGap c = false := by
  cases hgap : isGap c with
  | false => rfl
  | true =>
    simp only [isGap, Bool.or_eq_true, decide_eq_true_eq] at hgap
    rcases hgap with (((rfl | rfl) | rfl) | rfl) | rfl <;> revert h <;> decide

theorem isWordStart_of_isDigit {c : Char} (h : c.isDigit = true) : isWordStart c = false := by
  have hdigit := h
  simp only [Char.isDigit, Bool.and_eq_true, decide_eq_true_eq, ge_iff_le, UInt32.le_iff_toNat_le] at hdigit
  have hzero : '0'.val.toNat = 48 := rfl
  have hnine : '9'.val.toNat = 57 := rfl
  cases hword : isWordStart c with
  | false => rfl
  | true =>
    have hletter : (decide (c.val ≥ 'A'.val ∧ c.val ≤ 'Z'.val) ||
        decide (c.val ≥ 'a'.val) && decide (c.val ≤ 'z'.val) || decide (c = '_')) = true := hword
    simp only [Bool.or_eq_true, Bool.and_eq_true, decide_eq_true_eq, ge_iff_le, UInt32.le_iff_toNat_le] at hletter
    have hA : 'A'.val.toNat = 65 := rfl
    have ha : 'a'.val.toNat = 97 := rfl
    rcases hletter with (hletter | hletter) | rfl
    · omega
    · omega
    · exact absurd h (by decide)

theorem isGap_of_isDigit {c : Char} (h : c.isDigit = true) : isGap c = false := by
  cases hgap : isGap c with
  | false => rfl
  | true =>
    simp only [isGap, Bool.or_eq_true, decide_eq_true_eq] at hgap
    rcases hgap with (((rfl | rfl) | rfl) | rfl) | rfl <;> revert h <;> decide

/-! ## runs of characters -/

section
variable {p : Char → Bool} {w rest : List Char}

theorem takeWhile_run (hw : ∀ c ∈ w, p c = true) (hrest : ∀ c ∈ rest.head?, p c = false) :
    (w ++ rest).takeWhile p = w := by
  rw [List.takeWhile_append_of_pos hw]
  cases rest with
  | nil => rw [List.takeWhile_nil, List.append_nil]
  | cons c rest => rw [List.takeWhile_cons_of_neg (by rw [hrest c rfl]; exact Bool.noConfusion), List.append_nil]

theorem dropWhile_run (hw : ∀ c ∈ w, p c = true) (hrest : ∀ c ∈ rest.head?, p c = false) :
    (w ++ rest).dropWhile p = rest := by
  rw [List.dropWhile_append_of_pos hw]
  cases rest with
  | nil => rfl
  | cons c rest => rw [List.dropWhile_cons_of_neg (by rw [hrest c rfl]; exact Bool.noConfusion)]

theorem all_takeWhile (cs : List Char) : ∀ c ∈ cs.takeWhile p, p c = true := by
  exact fun c hc => (List.all_eq_true.mp (List.all_takeWhile ..)) c hc

theorem head?_dropWhile (cs : List Char) : ∀ c ∈ (cs.dropWhile p).head?, p c = false := by
  intro c hc
  have := List.head?_dropWhile_not p cs
  rw [hc] at this
  simpa using this

end

/-! ## numbers and signs -/

theorem Punct.first?_chars (p : Punct) {rest : List Char} (h : ∀ c ∈ rest.head?, p.goesOn c = false) :
    Punct.first? (p.chars ++ rest) = some (p, rest) := by
  cases rest with
  | nil => cases p <;> rfl
  | cons c rest =>
    have hc := h c rfl
    cases p <;> simp [Punct.goesOn] at hc <;> simp [Punct.first?, Punct.chars, hc]

/-- The sign that is found is the longest one. -/
theorem Punct.goesOn_of_first? {cs rest : List Char} {p : Punct} (h : Punct.first? cs = some (p, rest))
    (hp : p ≠ .leftParen) : ∀ c ∈ rest.head?, p.goesOn c = false := by
  unfold Punct.first? at h
  split at h <;> cases h
  all_goals intro c hc
  all_goals cases rest <;> cases hc
  all_goals simp_all [Punct.goesOn]

namespace Piece
variable {c : Char} {rest : List Char}

theorem number_integer {ds : List Char} {n : Int64} (hds : ∀ d ∈ c :: ds, d.isDigit = true)
    (hn : machineInteger? (Nat.ofDigitChars 10 (c :: ds) 0) = some n)
    (hstops : (Token.integer n).stops rest) :
    number c (ds ++ rest) = (.token (.integer n) (c :: ds), rest) := by
  obtain ⟨hdigit, hpoint⟩ := hstops
  have htail : ∀ d ∈ ds, d.isDigit = true := fun d hd => hds d (List.mem_cons_of_mem _ hd)
  simp only [number, takeWhile_run htail hdigit, dropWhile_run htail hdigit, hn]
  split
  · rename_i _ d r
    rw [if_neg]
    rw [hpoint d r rfl]
    exact Bool.noConfusion
  · rfl

theorem number_real {d : Char} {w f : List Char} (hw : ∀ x ∈ c :: w, x.isDigit = true)
    (hf : ∀ x ∈ d :: f, x.isDigit = true) (hstops : ∀ x ∈ rest.head?, x.isDigit = false) :
    number c (w ++ '.' :: d :: f ++ rest)
      = (.token (.real (Double.ofDigits (c :: w) (d :: f))) (c :: w ++ '.' :: d :: f), rest) := by
  have hwhole : ∀ x ∈ w, x.isDigit = true := fun x hx => hw x (List.mem_cons_of_mem _ hx)
  have hfraction : ∀ x ∈ f, x.isDigit = true := fun x hx => hf x (List.mem_cons_of_mem _ hx)
  have hpoint : ∀ x ∈ ('.' :: d :: (f ++ rest)).head?, x.isDigit = false := by
    intro x hx
    cases hx
    decide
  have htext : w ++ '.' :: d :: f ++ rest = w ++ '.' :: d :: (f ++ rest) := by
    rw [List.append_assoc]
    rfl
  rw [htext]
  simp only [number, takeWhile_run hwhole hpoint, dropWhile_run hwhole hpoint, hf d (List.mem_cons_self ..),
    if_true, takeWhile_run hfraction hstops, dropWhile_run hfraction hstops]

end Piece

/-! ## strings and comments -/

inductive ClosedComment : List Char → Prop
  | brace {body : List Char} (h : '\x7d' ∉ body) : ClosedComment ('\x7b' :: (body ++ ['\x7d']))
  | paren {body : List Char} (h : ¬ ['*', ')'] <:+: body) :
      ClosedComment ('(' :: '*' :: (body ++ ['*', ')']))

section
variable {body rest : List Char}

theorem closeBrace_of_not_mem (h : '\x7d' ∉ body) :
    closeBrace (body ++ '\x7d' :: rest) = some (body ++ ['\x7d'], rest) := by
  induction body with
  | nil => rfl
  | cons c body ih =>
    rw [List.mem_cons, not_or] at h
    rw [List.cons_append, closeBrace, if_neg (Ne.symm h.1), ih h.2]
    rfl

theorem not_mem_of_closeBrace {cs text : List Char} (h : closeBrace cs = some (text, rest)) :
    ∃ body, text = body ++ ['\x7d'] ∧ '\x7d' ∉ body := by
  induction cs generalizing text with
  | nil => cases h
  | cons c cs ih =>
    rw [closeBrace] at h
    split at h
    · cases h
      exact ⟨[], rfl, List.not_mem_nil⟩
    · rename_i hc
      obtain ⟨⟨text', rest'⟩, hclose, he⟩ := Option.map_eq_some_iff.mp h
      cases he
      obtain ⟨body, rfl, hbody⟩ := ih hclose
      refine ⟨c :: body, rfl, ?_⟩
      rw [List.mem_cons, not_or]
      exact ⟨Ne.symm hc, hbody⟩

theorem closeParen_of_not_infix (h : ¬ ['*', ')'] <:+: body) :
    closeParen (body ++ '*' :: ')' :: rest) = some (body ++ ['*', ')'], rest) := by
  induction body with
  | nil => rfl
  | cons c body ih =>
    have htail := ih fun hin => h (List.infix_cons hin)
    rw [List.cons_append]
    unfold closeParen
    split
    · rename_i r he
      cases body with
      | nil => cases he
      | cons d body =>
        cases he
        exact absurd (List.prefix_iff_eq_append.mpr rfl : ['*', ')'] <+: '*' :: ')' :: body).isInfix h
    · rw [htail]
      rfl

theorem not_infix_of_closeParen {cs text : List Char} (h : closeParen cs = some (text, rest)) :
    ∃ body, text = body ++ ['*', ')'] ∧ ¬ ['*', ')'] <:+: body := by
  induction cs generalizing text with
  | nil => cases h
  | cons c cs ih =>
    unfold closeParen at h
    split at h
    · cases h
      exact ⟨[], rfl, by decide⟩
    · rename_i hnot
      obtain ⟨⟨text', rest'⟩, hclose, he⟩ := Option.map_eq_some_iff.mp h
      cases he
      obtain ⟨body, rfl, hbody⟩ := ih hclose
      refine ⟨c :: body, rfl, fun hin => ?_⟩
      rcases List.infix_cons_iff.mp hin with hpre | hin
      · obtain ⟨hc, hpre⟩ := List.cons_prefix_cons.mp hpre
        have hcs := closeParen_append hclose
        cases body with
        | nil => cases List.prefix_nil.mp hpre
        | cons d body =>
          obtain ⟨hd, _⟩ := List.cons_prefix_cons.mp hpre
          subst hc hd
          exact hnot _ rfl hcs.symm
      · exact hbody hin

/-- Doubled quotes are read as one, and the quote after them ends the literal. -/
theorem closeQuote_doubleQuotes (text rest : List Char) (hrest : rest.head? ≠ some '\'') :
    closeQuote (doubleQuotes text ++ '\'' :: rest) = some (text, doubleQuotes text ++ ['\''], rest) := by
  induction text with
  | nil =>
    cases rest with
    | nil => rfl
    | cons d rest =>
      have hd : d ≠ '\'' := fun h => hrest (h ▸ rfl)
      show closeQuote ('\'' :: d :: rest) = _
      rw [closeQuote, if_pos rfl, if_neg hd]
      rfl
  | cons c text ih =>
    by_cases hc : c = '\''
    · rw [doubleQuotes, if_pos hc]
      show closeQuote ('\'' :: '\'' :: (doubleQuotes text ++ '\'' :: rest)) = _
      rw [closeQuote, if_pos rfl, if_pos rfl, ih, hc]
      rfl
    · rw [doubleQuotes, if_neg hc, List.cons_append]
      -- there is a character after `c`: at least the closing quote
      obtain ⟨d, ds, hds⟩ := List.exists_cons_of_ne_nil
        (List.append_ne_nil_of_right_ne_nil (doubleQuotes text) (List.cons_ne_nil '\'' rest))
      rw [hds] at ih ⊢
      rw [closeQuote, if_neg hc, ih]
      rfl

/-- What a string literal spells, and that no quote follows it. -/
theorem doubleQuotes_of_closeQuote {cs s text : List Char} (h : closeQuote cs = some (s, text, rest)) :
    text = doubleQuotes s ++ ['\''] ∧ rest.head? ≠ some '\'' := by
  fun_induction closeQuote cs generalizing s text with
  | case1 => cases h
  | case2 =>
    cases h
    exact ⟨rfl, by decide⟩
  | case3 => cases h
  | case4 cs ih =>
    obtain ⟨⟨s', text', rest'⟩, hclose, he⟩ := Option.map_eq_some_iff.mp h
    cases he
    obtain ⟨rfl, hrest⟩ := ih hclose
    exact ⟨rfl, hrest⟩
  | case5 d cs hd =>
    cases h
    exact ⟨rfl, fun h => hd (Option.some.inj h)⟩
  | case6 c d cs hc ih =>
    obtain ⟨⟨s', text', rest'⟩, hclose, he⟩ := Option.map_eq_some_iff.mp h
    cases he
    obtain ⟨rfl, hrest⟩ := ih hclose
    exact ⟨by rw [doubleQuotes, if_neg hc]; rfl, hrest⟩

end

/-! ## the first piece -/

namespace Piece
variable {c : Char} {cs rest : List Char} {t : Token} {text : List Char}

theorem sign_chars (p : Punct) (hp : p.chars = c :: text) (hstops : (Token.punct p).stops rest) :
    sign c (text ++ rest) = (.token (.punct p) p.text.toList, rest) := by
  have hfirst := p.first?_chars hstops
  rw [hp, List.cons_append] at hfirst
  simp only [sign, hfirst]

/-- **A token that is written, and stops, is the first piece.** -/
theorem first_written (h : Written t (c :: text)) (hstops : t.stops rest) :
    first c (text ++ rest) = (.token t (c :: text), rest) := by
  generalize hall : c :: text = all at h
  cases h with
  | word hc hw =>
    cases hall
    have hstops := Token.stops_ofWord.mp hstops
    simp only [first, isGap_of_isWordStart hc, hc, Bool.false_eq_true, if_false, if_true, word,
      takeWhile_run hw hstops, dropWhile_run hw hstops]
  | integer hds hn =>
    cases hall
    have hc := hds _ (List.mem_cons_self ..)
    simp only [first, isGap_of_isDigit hc, isWordStart_of_isDigit hc, hc, Bool.false_eq_true, if_false,
      if_true, number_integer hds hn hstops]
  | real hw hf =>
    cases hall
    have hc := hw _ (List.mem_cons_self ..)
    simp only [first, isGap_of_isDigit hc, isWordStart_of_isDigit hc, hc, Bool.false_eq_true, if_false,
      if_true]
    exact number_real hw hf hstops
  | string s =>
    cases hall
    have hgap : isGap '\'' = false := by decide
    have hword : isWordStart '\'' = false := by decide
    have hdigit : '\''.isDigit = false := by decide
    rw [List.append_assoc, List.singleton_append]
    simp only [first, hgap, hword, hdigit, Bool.false_eq_true, if_false,
      closeQuote_doubleQuotes s rest hstops]
  | punct p =>
    have hchars := p.toList_text.symm.trans hall.symm
    rw [← sign_chars p hchars hstops]
    cases p <;> cases hchars <;> first
      | rfl
      | (cases rest with
          | nil => rfl
          | cons d rest =>
            have hd := hstops d rfl
            simp [Punct.goesOn] at hd
            simp [first, isGap, isWordStart, hd])

/-- A closed comment is the first piece, whatever follows. -/
theorem first_comment (h : ClosedComment (c :: text)) (rest : List Char) :
    first c (text ++ rest) = (.comment (c :: text), rest) := by
  cases h with
  | @brace body h =>
    have hgap : isGap '\x7b' = false := by decide
    have hword : isWordStart '\x7b' = false := by decide
    have hdigit : '\x7b'.isDigit = false := by decide
    rw [List.append_assoc, List.singleton_append]
    simp only [first, hgap, hword, hdigit, Bool.false_eq_true, if_false, closeBrace_of_not_mem h]
  | @paren body h =>
    have hgap : isGap '(' = false := by decide
    have hword : isWordStart '(' = false := by decide
    have hdigit : '('.isDigit = false := by decide
    have hclose : closeParen (body ++ '*' :: ')' :: rest) = some (body ++ ['*', ')'], rest) :=
      closeParen_of_not_infix h
    show first '(' ('*' :: (body ++ ['*', ')'] ++ rest)) = _
    rw [List.append_assoc]
    simp only [first, hgap, hword, hdigit, Bool.false_eq_true, if_false, List.cons_append, List.nil_append,
      hclose]

/-- What the first piece of `c :: cs`, with the text after it, may be. -/
inductive Begins (c : Char) (cs : List Char) : Piece → List Char → Prop
  | blank (hc : isGap c = true) :
      Begins c cs (.blank (c :: cs.takeWhile isGap)) (cs.dropWhile isGap)
  | comment {text rest : List Char} (h : ClosedComment text) : Begins c cs (.comment text) rest
  | token {t : Token} {text rest : List Char} (h : Written t text) (hstops : t.stops rest) :
      Begins c cs (.token t text) rest
  | illegal (hc : isGap c = false) : Begins c cs (.illegal c) cs

theorem begins_number (hc : c.isDigit = true) : Begins c cs (number c cs).1 (number c cs).2 := by
  have hdigits : ∀ d ∈ c :: cs.takeWhile Char.isDigit, d.isDigit = true := by
    intro d hd
    rcases List.mem_cons.mp hd with rfl | hd
    · exact hc
    · exact all_takeWhile cs d hd
  unfold number
  dsimp only
  split
  · rename_i d r hdot
    split
    · rename_i hd
      refine .token (.real hdigits ?_) (head?_dropWhile r)
      intro x hx
      rcases List.mem_cons.mp hx with rfl | hx
      · exact hd
      · exact all_takeWhile r x hx
    · rename_i hd
      split
      · rename_i n hn
        refine .token (.integer hdigits hn) ⟨head?_dropWhile cs, fun d' r' he => ?_⟩
        cases hdot.symm.trans he
        exact eq_false_of_ne_true hd
      · exact .illegal (isGap_of_isDigit hc)
  · rename_i hnot
    split
    · rename_i n hn
      exact .token (.integer hdigits hn) ⟨head?_dropWhile cs, fun d r he => absurd he (hnot d r)⟩
    · exact .illegal (isGap_of_isDigit hc)

theorem begins_sign (hgap : isGap c = false) (hnot : ∀ r, c = '(' → cs = '*' :: r → False) :
    Begins c cs (sign c cs).1 (sign c cs).2 := by
  unfold sign
  split
  · rename_i p rest hp
    refine .token (.punct p) ?_
    by_cases hparen : p = .leftParen
    · subst hparen
      have happend := Punct.first?_append hp
      cases happend
      intro d hd
      cases rest with
      | nil => cases hd
      | cons e rest =>
        cases hd
        refine decide_eq_false fun he => ?_
        exact hnot rest rfl (by rw [he]; rfl)
    · exact Punct.goesOn_of_first? hp hparen
  · exact .illegal hgap

/-- **The first piece is white space, a closed comment, a token that is written there and stops, or a single
illegal character.** -/
theorem begins_first (c : Char) (cs : List Char) : Begins c cs (first c cs).1 (first c cs).2 := by
  cases hgap : isGap c with
  | true =>
    simp only [first, hgap, if_true]
    exact .blank hgap
  | false =>
    cases hword : isWordStart c with
    | true =>
      simp only [first, hgap, hword, Bool.false_eq_true, if_false, if_true]
      exact .token (.word hword (all_takeWhile cs)) (Token.stops_ofWord.mpr (head?_dropWhile cs))
    | false =>
      cases hdigit : c.isDigit with
      | true =>
        simp only [first, hgap, hword, hdigit, Bool.false_eq_true, if_false, if_true]
        exact begins_number hdigit
      | false =>
        simp only [first, hgap, hword, hdigit, Bool.false_eq_true, if_false]
        split
        · split
          · rename_i body rest hclose
            obtain ⟨body, rfl, hbody⟩ := not_mem_of_closeBrace hclose
            exact .comment (.brace hbody)
          · exact .illegal hgap
        · split
          · rename_i body rest hclose
            obtain ⟨body, rfl, hbody⟩ := not_infix_of_closeParen hclose
            exact .comment (.paren hbody)
          · exact .illegal hgap
        · split
          · rename_i s body rest hclose
            obtain ⟨rfl, hrest⟩ := doubleQuotes_of_closeQuote hclose
            exact .token (.string s) hrest
          · exact .illegal hgap
        · rename_i hnot
          exact begins_sign hgap hnot

end Piece

/-! ## tokens and illegal characters -/

/-- White space and comments. -/
def Piece.isFiller : Piece → Bool
  | .blank _ => true
  | .comment _ => true
  | .token _ _ => false
  | .illegal _ => false

def Piece.isIllegal : Piece → Bool
  | .illegal _ => true
  | _ => false

/-- The tokens and illegal characters of a text that starts on `line`, with their lines. -/
def marks (line : Nat) (cs : List Char) : List (Nat × Piece) :=
  (locate line (pieces cs)).filter fun x => !x.2.isFiller

section
variable {line : Nat} {c : Char} {cs text rest : List Char} {p : Piece} {t : Token}

theorem marks_filler (h : Piece.first c cs = (p, rest)) (hp : p.isFiller = true) :
    marks line (c :: cs) = marks (lineAfter line p.text) rest := by
  simp only [marks, pieces_cons, h, locate, List.filter_cons, hp, Bool.not_true, Bool.false_eq_true, if_false]

theorem marks_mark (h : Piece.first c cs = (p, rest)) (hp : p.isFiller = false) :
    marks line (c :: cs) = (line, p) :: marks (lineAfter line p.text) rest := by
  simp only [marks, pieces_cons, h, locate, List.filter_cons, hp, Bool.not_false, if_true]

theorem lineAfter_append (line : Nat) (a b : List Char) :
    lineAfter line (a ++ b) = lineAfter (lineAfter line a) b := by
  simp only [lineAfter, List.count_append, Nat.add_assoc]

/-- White space counts for its lines only. -/
theorem marks_gap (hc : isGap c = true) : marks line (c :: cs) = marks (lineAfter line [c]) cs := by
  have hfirst : ∀ {c cs}, isGap c = true →
      Piece.first c cs = (.blank (c :: cs.takeWhile isGap), cs.dropWhile isGap) := by
    intro c cs hc
    simp only [Piece.first, hc, if_true]
  rw [marks_filler (hfirst hc) rfl]
  cases cs with
  | nil => rfl
  | cons d cs =>
    cases hd : isGap d with
    | true =>
      rw [marks_filler (hfirst hd) rfl, List.takeWhile_cons_of_pos hd, List.dropWhile_cons_of_pos hd]
      show marks (lineAfter line ([c] ++ _)) _ = _
      rw [lineAfter_append]
      rfl
    | false =>
      have hd : ¬ isGap d = true := by rw [hd]; exact Bool.noConfusion
      rw [List.takeWhile_cons_of_neg hd, List.dropWhile_cons_of_neg hd]
      rfl

theorem marks_gaps (h : ∀ c ∈ text, isGap c = true) :
    marks line (text ++ rest) = marks (lineAfter line text) rest := by
  induction text generalizing line with
  | nil => rfl
  | cons c text ih =>
    rw [List.cons_append, marks_gap (h c (List.mem_cons_self ..)),
      ih fun d hd => h d (List.mem_cons_of_mem _ hd), ← lineAfter_append, List.singleton_append]

/-- So does a closed comment. -/
theorem marks_comment (h : ClosedComment text) :
    marks line (text ++ rest) = marks (lineAfter line text) rest := by
  cases text with
  | nil => cases h
  | cons c text => exact marks_filler (Piece.first_comment h rest) rfl

theorem marks_token (h : Written t text) (hstops : t.stops rest) :
    marks line (text ++ rest) = (line, .token t text) :: marks (lineAfter line text) rest := by
  cases text with
  | nil => exact absurd rfl h.ne_nil
  | cons c text => exact marks_mark (Piece.first_written h hstops) rfl

end

theorem lexemesOf_marks (line : Nat) (cs : List Char) :
    lexemesOf (marks line cs) = lexemesOf (locate line (pieces cs)) := by
  unfold marks
  induction locate line (pieces cs) with
  | nil => rfl
  | cons x xs ih =>
    obtain ⟨n, p⟩ := x
    cases p with
    | blank _ => exact ih
    | comment _ => exact ih
    | token t _ => exact congrArg (⟨n, t⟩ :: ·) ih
    | illegal _ => exact ih

theorem errorsOf_marks (line : Nat) (cs : List Char) :
    errorsOf (marks line cs) = errorsOf (locate line (pieces cs)) := by
  unfold marks
  induction locate line (pieces cs) with
  | nil => rfl
  | cons x xs ih =>
    obtain ⟨n, p⟩ := x
    cases p with
    | blank _ => exact ih
    | comment _ => exact ih
    | token _ _ => exact ih
    | illegal c => exact congrArg (⟨n, c⟩ :: ·) ih

end PascalStack
