import PascalStack.Proofs.Grammar.Names
import PascalStack.Proofs.Number.Magnitude
import PascalStack.Proofs.Token.Written

/-!
# Reading undoes printing

* `Gap`               white space and closed comments between two tokens;
* `joined`            the texts of tokens with gaps between them;
* `Written.text`      the text of a token that was read spells it again, but for the infinite number;
* `tokens_joined`     the tokens of a joined text;
* `tokens_printed_iff`  a printed text is read as the tokens it was made of, unless one of them is infinite.
-/

namespace PascalStack

/-! ## gaps -/

/-- A white space character or a closed comment. -/
inductive Filler where
  | blank (c : Char) (hc : isGap c = true)
  | comment (text : List Char) (h : ClosedComment text)

def Filler.text : Filler → List Char
  | .blank c _ => [c]
  | .comment text _ => text

/-- What stands between two tokens: white space and comments, at least one. -/
structure Gap where
  fillers : List Filler
  nonempty : fillers ≠ []

def Gap.text (g : Gap) : List Char := g.fillers.flatMap Filler.text

/-- The texts of tokens, with `gap i` between the `i`-th and the next. -/
def joined : List Token → (Nat → Gap) → List Char
  | [], _ => []
  | [t], _ => t.text.toList
  | t :: ts, gap => t.text.toList ++ ((gap 0).text ++ joined ts fun i => gap (i + 1))

def printed (ts : List Token) (gap : Nat → Gap) : String := String.ofList (joined ts gap)

/-- The characters a gap may start with. -/
def opensGap (c : Char) : Bool := isGap c || c = '\x7b' || c = '('

theorem Filler.head_text (f : Filler) : ∃ c r, f.text = c :: r ∧ opensGap c = true := by
  cases f with
  | blank c hc => exact ⟨c, [], rfl, by simp only [opensGap, hc, Bool.true_or]⟩
  | comment text h =>
    cases h with
    | brace _ => exact ⟨_, _, rfl, by decide⟩
    | paren _ => exact ⟨_, _, rfl, by decide⟩

theorem Gap.head_text (g : Gap) : ∃ c r, g.text = c :: r ∧ opensGap c = true := by
  obtain ⟨fillers, hne⟩ := g
  obtain ⟨f, fs, rfl⟩ := List.exists_cons_of_ne_nil hne
  obtain ⟨c, r, hf, hc⟩ := f.head_text
  exact ⟨c, r ++ fs.flatMap Filler.text, by rw [Gap.text, List.flatMap_cons, hf]; rfl, hc⟩

theorem kind_of_opensGap {c : Char} (h : opensGap c = true) : isWordPart c = false ∧ c.isDigit = false ∧
    c ≠ '\'' ∧ c ≠ '.' ∧ ∀ p : Punct, p.goesOn c = false := by
  simp only [opensGap, isGap, Bool.or_eq_true, decide_eq_true_eq] at h
  rcases h with (((((rfl | rfl) | rfl) | rfl) | rfl) | rfl) | rfl <;>
    exact ⟨by decide, by decide, by decide, by decide, fun p => by cases p <;> rfl⟩

/-- No token goes on with what a gap starts with. -/
theorem Token.stops_of_opensGap (t : Token) {c : Char} (hc : opensGap c = true) (rest : List Char) :
    t.stops (c :: rest) := by
  obtain ⟨hword, hdigit, hquote, hdot, hsign⟩ := kind_of_opensGap hc
  have hhead : ∀ {P : Char → Prop}, P c → ∀ d ∈ (c :: rest).head?, P d := by
    intro P hP d hd
    cases hd
    exact hP
  cases t with
  | keyword k => exact hhead hword
  | identifier name => exact hhead hword
  | integer n => exact ⟨hhead hdigit, fun d r he => absurd (List.cons.inj he).1 hdot⟩
  | real x => exact hhead hdigit
  | string s => exact fun he => hquote (Option.some.inj he)
  | punct p => exact hhead (hsign p)

section
variable {line : Nat} {rest : List Char}

theorem Filler.marks_text (f : Filler) :
    marks line (f.text ++ rest) = marks (lineAfter line f.text) rest := by
  cases f with
  | blank c hc => exact marks_gap hc
  | comment text h => exact marks_comment h

theorem marks_fillers (fs : List Filler) : marks line (fs.flatMap Filler.text ++ rest)
    = marks (lineAfter line (fs.flatMap Filler.text)) rest := by
  induction fs generalizing line with
  | nil => rfl
  | cons f fs ih => rw [List.flatMap_cons, List.append_assoc, f.marks_text, ih, lineAfter_append]

/-- Only the lines of a gap count. -/
theorem Gap.marks_text (g : Gap) : marks line (g.text ++ rest) = marks (lineAfter line g.text) rest :=
  marks_fillers g.fillers

end

/-! ## texts of tokens -/

/-- What the text of a token is read as: the text of the infinite number is a name. -/
def Token.reread : Token → Token
  | .real x =>
    match Double.parts x with
    | .infinite _ => .identifier "inf"
    | _ => .real x
  | t => t

theorem Token.reread_real {x : Float} (h : ∀ negative, Double.parts x ≠ .infinite negative) :
    (Token.real x).reread = .real x := by
  unfold Token.reread
  dsimp only
  split
  · rename_i negative hparts
    exact absurd hparts (h negative)
  · rfl

theorem Token.reread_infinite {x : Float} {negative : Bool} (h : Double.parts x = .infinite negative) :
    (Token.real x).reread = .identifier "inf" := by
  simp only [Token.reread, h]

theorem written_keyword (k : Keyword) : Written (.keyword k) k.text.toList := by
  have hword : Token.ofWord k.text.toList = .keyword k := by cases k <;> rfl
  have hspell : ∃ c w, k.text.toList = c :: w ∧ isWordStart c = true ∧ ∀ d ∈ w, isWordPart d = true := by
    cases k <;> exact ⟨_, _, rfl, rfl, List.all_eq_true.mp rfl⟩
  obtain ⟨c, w, htext, hc, hw⟩ := hspell
  rw [htext] at hword ⊢
  rw [← hword]
  exact .word hc hw

/-- The text of an integer that was read spells it. -/
theorem written_integer {m : Nat} {n : Int64} (h : machineInteger? m = some n) :
    Written (.integer n) (integerText n).toList := by
  have hn : n.toInt = m := by
    unfold machineInteger? at h
    split at h
    · rename_i hrange
      cases h
      exact Int64.toInt_ofInt_of_le hrange.1 (Int.lt_of_le_of_lt hrange.2 (by decide))
    · cases h
  have htext : (integerText n).toList = Nat.toDigits 10 m := by
    rw [integerText, hn]
    exact String.toList_ofList
  rw [htext]
  have hvalue : Nat.ofDigitChars 10 (Nat.toDigits 10 m) 0 = m := Nat.ofDigitChars_ten_toDigits
  have hdigits : ∀ c ∈ Nat.toDigits 10 m, c.isDigit = true := fun c => Double.isDigit_of_mem_toDigits
  obtain ⟨c, ds, hds⟩ := List.exists_cons_of_ne_nil (Nat.toDigits_ne_nil (n := m) (b := 10))
  rw [hds] at hvalue hdigits ⊢
  exact .integer hdigits (by rw [hvalue]; exact h)

theorem written_real (w f : List Char) :
    Written (Token.real (Double.ofDigits w f)).reread (Double.literal (Double.ofDigits w f)).toList := by
  rcases Double.literal_ofDecimal (Nat.ofDigitChars 10 (w ++ f) 0) (-f.length) with
    ⟨hparts, htext⟩ | ⟨hparts, w', f', htext, hw', hf', hdw, hdf, hvalue⟩
  · rw [Double.ofDigits, Token.reread_infinite hparts, htext]
    exact .word (c := 'i') (w := ['n', 'f']) rfl (List.all_eq_true.mp rfl)
  · rw [Double.ofDigits, Token.reread_real hparts, htext, ← hvalue]
    obtain ⟨c, w', rfl⟩ := List.exists_cons_of_ne_nil hw'
    obtain ⟨d, f', rfl⟩ := List.exists_cons_of_ne_nil hf'
    exact .real hdw hdf

/-- **The text of a token that was read spells it again**, unless it is the infinite number. -/
theorem Written.text {t : Token} {text : List Char} (h : Written t text) : Written t.reread t.text.toList := by
  cases h with
  | @word c w hc hw =>
    have hword : Written (.ofWord (c :: w)) (c :: w) := .word hc hw
    unfold Token.ofWord at hword ⊢
    split
    · rename_i k hk
      exact written_keyword k
    · rename_i hk
      simp only [hk] at hword
      rw [Token.text, String.toList_ofList]
      exact hword
  | integer hds hn => exact written_integer hn
  | real hw hf => exact written_real _ _
  | string s =>
    rw [Token.text, quoted, String.toList_ofList, String.toList_ofList]
    exact .string s
  | punct p => exact .punct p

/-! ## reading -/

/-- The tokens of a joined text, in which nothing is illegal. -/
theorem tokens_joined {ts : List Token} (hts : ∀ t ∈ ts, ∃ text, Written t text) (gap : Nat → Gap) (line : Nat) :
    tokensOf (lexemesOf (marks line (joined ts gap))) = ts.map Token.reread ∧
    errorsOf (marks line (joined ts gap)) = [] := by
  fun_induction joined ts gap generalizing line with
  | case1 => exact ⟨rfl, rfl⟩
  | case2 t gap =>
    obtain ⟨_, ht⟩ := hts t (List.mem_cons_self ..)
    rw [← List.append_nil t.text.toList, marks_token ht.text t.reread.stops_nil]
    exact ⟨rfl, rfl⟩
  | case3 t ts gap _ ih =>
    obtain ⟨_, ht⟩ := hts t (List.mem_cons_self ..)
    obtain ⟨htokens, herrors⟩ := ih (fun u hu => hts u (List.mem_cons_of_mem _ hu))
      (lineAfter (lineAfter line t.text.toList) (gap 0).text)
    have hstops : t.reread.stops ((gap 0).text ++ joined ts fun i => gap (i + 1)) := by
      obtain ⟨c, r, hg, hc⟩ := (gap 0).head_text
      rw [hg]
      exact t.reread.stops_of_opensGap hc _
    rw [marks_token ht.text hstops, Gap.marks_text]
    exact ⟨congrArg (t.reread :: ·) htokens, herrors⟩

/-- The tokens of a text are written in it. -/
theorem written_of_mem_pieces {t : Token} {text cs : List Char} (h : Piece.token t text ∈ pieces cs) :
    Written t text := by
  induction cs using pieces_induction with
  | nil => cases h
  | cons c cs ih =>
    rw [pieces_cons] at h
    rcases List.mem_cons.mp h with h | h
    · have hbegins := Piece.begins_first c cs
      rw [← h] at hbegins
      cases hbegins with
      | token hw _ => exact hw
    · exact ih h

theorem written_of_mem_lexemes {t : Token} {source : String} (h : t ∈ tokensOf (lexemes source)) :
    ∃ text, Written t text := by
  obtain ⟨x, hx, rfl⟩ := List.mem_map.mp h
  obtain ⟨⟨line, p⟩, hp, hlexeme⟩ := List.mem_filterMap.mp hx
  have hpiece := mem_locate hp
  cases p with
  | token t text =>
    cases hlexeme
    exact ⟨text, written_of_mem_pieces hpiece⟩
  | blank text => cases hlexeme
  | comment text => cases hlexeme
  | illegal c => cases hlexeme

theorem Token.reread_eq_iff (t : Token) :
    t.reread = t ↔ ∀ x negative, t = .real x → Double.parts x ≠ .infinite negative := by
  constructor
  · rintro h x negative rfl hparts
    rw [Token.reread_infinite hparts] at h
    cases h
  · intro h
    cases t with
    | real x => exact Token.reread_real fun negative => h x negative rfl
    | keyword | identifier | integer | string | punct => rfl

/-- **Reading undoes printing.**  The tokens of a source text, printed with any gaps between them, are read
without a lexical error, and as the same tokens iff no real number among them is infinite. -/
theorem tokens_printed_iff (source : String) (gap : Nat → Gap) :
    lexicalErrors (printed (tokensOf (lexemes source)) gap) = [] ∧
    (tokensOf (lexemes (printed (tokensOf (lexemes source)) gap)) = tokensOf (lexemes source) ↔
      ∀ x negative, Token.real x ∈ tokensOf (lexemes source) → Double.parts x ≠ .infinite negative) := by
  have hwritten : ∀ t ∈ tokensOf (lexemes source), ∃ text, Written t text := fun t => written_of_mem_lexemes
  generalize tokensOf (lexemes source) = ts at hwritten
  have hscan : scan (printed ts gap) = locate 1 (pieces (joined ts gap)) := by
    rw [scan, printed, String.toList_ofList]
  obtain ⟨htokens, herrors⟩ := tokens_joined hwritten gap 1
  rw [lexemesOf_marks, ← hscan] at htokens
  rw [errorsOf_marks, ← hscan] at herrors
  refine ⟨herrors, ?_⟩
  calc tokensOf (lexemes (printed ts gap)) = ts
    _ ↔ ts.map Token.reread = ts.map id := by rw [lexemes, htokens, List.map_id]
    _ ↔ ∀ t ∈ ts, t.reread = t := List.map_inj_left
    _ ↔ ∀ x negative, Token.real x ∈ ts → Double.parts x ≠ .infinite negative := by
      simp only [Token.reread_eq_iff]
      constructor
      · intro h x negative hx
        exact h _ hx x negative rfl
      · rintro h _ hx x negative rfl
        exact h x negative hx

end PascalStack
