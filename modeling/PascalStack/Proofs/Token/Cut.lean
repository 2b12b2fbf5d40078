import Mathlib.Data.List.Basic
import PascalStack.Proofs.Token.Written

/-!
# Pieces that fit

A source text is cut into pieces in one way only, and the lines of the pieces are counted by the line feeds
before them.

* `Written.length_le`    a token that stops is the longest one written at its place;
* `Piece.Fits`           what a piece is, before the text that comes after it;
* `Piece.fits_first`, `Piece.first_of_fits`   the first piece of a text fits, and no other does;
* `pieces_iff`           the pieces of a text are the one way to cut it into pieces that fit;
* `locate_eq`            their lines, and `lines_locate` that these never decrease.
-/

namespace PascalStack

/-! ## the longest token -/

section
variable {p : Char → Bool} {a b rest : List Char}

/-- A run of characters of one kind is not longer than the run that ends before `rest`. -/
theorem length_le_of_run (ha : ∀ c ∈ a, p c = true) (h : a <+: b ++ rest)
    (hrest : ∀ c ∈ rest.head?, p c = false) : a.length ≤ b.length := by
  obtain ⟨more, h⟩ := h
  rcases List.append_eq_append_iff.mp h with ⟨as, rfl, _⟩ | ⟨cs, rfl, hcs⟩
  · rw [List.length_append]
    omega
  · cases cs with
    | nil => simp
    | cons c cs =>
      have hc := ha c (List.mem_append_right _ (List.mem_cons_self ..))
      rw [hrest c (by rw [hcs]; rfl)] at hc
      cases hc

/-- Two runs of characters of one kind at the head of one text are the same. -/
theorem eq_of_runs {c : Char} {s : List Char} (ha : ∀ x ∈ a, p x = true) (hb : ∀ x ∈ b, p x = true)
    (hc : p c = false) (hrest : ∀ x ∈ rest.head?, p x = false) (h : a ++ c :: s = b ++ rest) :
    a = b ∧ c :: s = rest := by
  have hhead : ∀ x ∈ (c :: s).head?, p x = false := by
    intro x hx
    cases hx
    exact hc
  have heq : a = b := by rw [← takeWhile_run ha hhead, h, takeWhile_run hb hrest]
  subst heq
  exact ⟨rfl, List.append_cancel_left h⟩

end

/-- A literal that stops is the longest one. -/
theorem length_doubleQuotes_le {s s' rest : List Char}
    (h : doubleQuotes s' ++ ['\''] <+: doubleQuotes s ++ '\'' :: rest) (hrest : rest.head? ≠ some '\'') :
    (doubleQuotes s').length ≤ (doubleQuotes s).length := by
  induction s generalizing s' with
  | nil =>
    cases s' with
    | nil => exact Nat.le_refl _
    | cons c s' =>
      by_cases hc : c = '\''
      · -- the literal would go on behind the quote
        simp only [doubleQuotes, if_pos hc, List.cons_append, List.nil_append,
          List.cons_prefix_cons, true_and] at h
        obtain ⟨more, h⟩ := h
        rw [← h] at hrest
        exact absurd rfl hrest
      · simp only [doubleQuotes, if_neg hc, List.cons_append, List.nil_append,
          List.cons_prefix_cons] at h
        exact absurd h.1 hc
  | cons c s ih =>
    cases s' with
    | nil => exact Nat.zero_le _
    | cons d s' =>
      by_cases hc : c = '\''
      · by_cases hd : d = '\''
        · simp only [doubleQuotes, if_pos hc, if_pos hd, List.cons_append, List.cons_prefix_cons, true_and] at h
          simp only [doubleQuotes, if_pos hc, if_pos hd, List.length_cons]
          exact Nat.add_le_add_right (ih h) 2
        · simp only [doubleQuotes, if_pos hc, if_neg hd, List.cons_append, List.cons_prefix_cons] at h
          exact absurd h.1 hd
      · by_cases hd : d = '\''
        · simp only [doubleQuotes, if_neg hc, if_pos hd, List.cons_append, List.cons_prefix_cons] at h
          exact absurd h.1.symm hc
        · simp only [doubleQuotes, if_neg hc, if_neg hd, List.cons_append, List.cons_prefix_cons] at h
          simp only [doubleQuotes, if_neg hc, if_neg hd, List.length_cons]
          exact Nat.add_le_add_right (ih h.2) 1

/-- A sign of one character goes on with the second character of a longer one. -/
theorem Punct.goesOn_of_chars {p q : Punct} {a b : Char} (hp : p.chars = [a]) (hq : q.chars = [a, b]) :
    p.goesOn b = true := by
  cases q <;> cases hq <;> cases p <;> cases hp <;> rfl

theorem Punct.length_chars (p : Punct) : p.chars.length = 1 ∨ p.chars.length = 2 := by
  cases p <;> decide

/-- A sign that stops is the longest one. -/
theorem Punct.length_le {p q : Punct} {rest : List Char} (h : q.chars <+: p.chars ++ rest)
    (hstops : ∀ c ∈ rest.head?, p.goesOn c = false) : q.chars.length ≤ p.chars.length := by
  rcases q.length_chars with hq | hq <;> rcases p.length_chars with hp | hp <;> try omega
  obtain ⟨a, hp⟩ := List.length_eq_one_iff.mp hp
  obtain ⟨a', b, hq⟩ := List.length_eq_two.mp hq
  rw [hp, hq, List.singleton_append, List.cons_prefix_cons] at h
  obtain ⟨rfl, more, rfl⟩ := h
  have hgoes := hstops b rfl
  rw [Punct.goesOn_of_chars hp hq] at hgoes
  cases hgoes

/-- The kind of a token, a word, a number, a string or a sign, by its first character. -/
def groupOf (c : Char) : Nat :=
  if isWordStart c then 0 else if c.isDigit then 1 else if c = '\'' then 2 else 3

def Token.group : Token → Nat
  | .keyword _ | .identifier _ => 0
  | .integer _ | .real _ => 1
  | .string _ => 2
  | .punct _ => 3

theorem Token.group_ofWord (w : List Char) : (Token.ofWord w).group = 0 := by
  unfold Token.ofWord
  split <;> rfl

theorem groupOf_of_isDigit {c : Char} (h : c.isDigit = true) : groupOf c = 1 := by
  rw [groupOf, isWordStart_of_isDigit h, if_neg Bool.noConfusion, if_pos h]

theorem Written.group {t : Token} {c : Char} {text : List Char} (h : Written t (c :: text)) :
    t.group = groupOf c := by
  generalize hall : c :: text = all at h
  cases h with
  | word hc _ =>
    cases hall
    rw [Token.group_ofWord, groupOf, if_pos hc]
  | integer hds _ =>
    cases hall
    exact (groupOf_of_isDigit (hds _ (List.mem_cons_self ..))).symm
  | real hw _ =>
    cases hall
    exact (groupOf_of_isDigit (hw _ (List.mem_cons_self ..))).symm
  | string _ =>
    cases hall
    show 2 = groupOf '\''
    decide
  | punct p => cases p <;> cases hall <;> decide

section
variable {t t' : Token} {text text' rest : List Char}

/-- **A token that stops is the longest one written at its place.** -/
theorem Written.length_le (h : Written t text) (hstops : t.stops rest) (h' : Written t' text')
    (hpre : text' <+: text ++ rest) : text'.length ≤ text.length := by
  have hgroup : t'.group = t.group := by
    cases text with
    | nil => exact absurd rfl h.ne_nil
    | cons c text =>
      cases text' with
      | nil => exact absurd rfl h'.ne_nil
      | cons d text' =>
        obtain ⟨rfl, _⟩ := List.cons_prefix_cons.mp hpre
        rw [h.group, h'.group]
  cases h with
  | word hc hw =>
    rw [Token.group_ofWord] at hgroup
    cases h' with
    | word hc' hw' =>
      refine Nat.succ_le_succ (length_le_of_run hw' (List.cons_prefix_cons.mp hpre).2 ?_)
      exact Token.stops_ofWord.mp hstops
    | integer | real | string | punct => cases hgroup
  | integer hds hn =>
    cases h' with
    | word => rw [Token.group_ofWord] at hgroup; cases hgroup
    | integer hds' _ => exact length_le_of_run hds' hpre hstops.1
    | real hw' hf' =>
      -- the point would come right after the digits
      obtain ⟨more, hpre⟩ := hpre
      rw [List.append_assoc] at hpre
      obtain ⟨_, hrest⟩ := eq_of_runs hw' hds (by decide) hstops.1 hpre
      have hd := hstops.2 _ _ hrest.symm
      rw [hf' _ (List.mem_cons_self ..)] at hd
      cases hd
    | string | punct => cases hgroup
  | real hw hf =>
    cases h' with
    | word => rw [Token.group_ofWord] at hgroup; cases hgroup
    | integer hds' _ =>
      rw [List.append_assoc] at hpre
      have hle := length_le_of_run hds' hpre (by intro x hx; cases hx; decide)
      rw [List.length_append]
      omega
    | real hw' hf' =>
      obtain ⟨more, hpre⟩ := hpre
      rw [List.append_assoc, List.append_assoc] at hpre
      obtain ⟨hwhole, hrest⟩ := eq_of_runs hw' hw (by decide) (by intro x hx; cases hx; decide) hpre
      have hfraction := length_le_of_run hf' ⟨more, List.cons.inj hrest |>.2⟩ hstops
      rw [List.length_append, List.length_append, hwhole]
      exact Nat.add_le_add_left (Nat.succ_le_succ hfraction) _
    | string | punct => cases hgroup
  | string s =>
    cases h' with
    | word => rw [Token.group_ofWord] at hgroup; cases hgroup
    | string s' =>
      rw [List.cons_append, List.append_assoc, List.cons_prefix_cons] at hpre
      have hle := length_doubleQuotes_le hpre.2 hstops
      simp only [List.length_cons, List.length_append]
      omega
    | integer | real | punct => cases hgroup
  | punct p =>
    cases h' with
    | word => rw [Token.group_ofWord] at hgroup; cases hgroup
    | punct q =>
      rw [Punct.toList_text, Punct.toList_text] at hpre ⊢
      exact Punct.length_le hpre hstops
    | integer | real | string => cases hgroup

/-- A text spells one token only. -/
theorem Written.unique (h : Written t text) (h' : Written t' text) : t' = t := by
  cases text with
  | nil => exact absurd rfl h.ne_nil
  | cons c text =>
    have hfirst := (Piece.first_written h' t'.stops_nil).symm.trans (Piece.first_written h t.stops_nil)
    exact (Piece.token.inj (Prod.mk.inj hfirst).1).1

end

/-! ## pieces that fit -/

/-- What a piece is, if the text after it is `rest`.

* `blank`     white space, and no more follows;
* `comment`   a closed comment;
* `token`     a text that spells the token, which does not go on behind it; no longer text at its place spells a
              token, and this one spells no other;
* `illegal`   a character that is no white space, at which no closed comment begins, and no token but such as
              go on behind their text. -/
inductive Piece.Fits : Piece → (rest : List Char) → Prop
  | blank {text rest : List Char} (hne : text ≠ []) (hall : ∀ c ∈ text, isGap c = true)
      (hrest : ∀ c ∈ rest.head?, isGap c = false) : Fits (.blank text) rest
  | comment {text rest : List Char} (h : ClosedComment text) : Fits (.comment text) rest
  | token {t : Token} {text rest : List Char} (h : Written t text) (hstops : t.stops rest)
      (hlongest : ∀ t' text', Written t' text' → text' <+: text ++ rest → text'.length ≤ text.length)
      (honly : ∀ t', Written t' text → t' = t) : Fits (.token t text) rest
  | illegal {c : Char} {rest : List Char} (hgap : isGap c = false)
      (hcomment : ∀ text, ClosedComment text → ¬ text <+: c :: rest)
      (htoken : ∀ t text after, Written t text → text ++ after = c :: rest → ¬ t.stops after) :
      Fits (.illegal c) rest

namespace Piece
variable {c : Char} {cs rest : List Char} {p : Piece}

/-- **The first piece of a text fits.** -/
theorem fits_first (c : Char) (cs : List Char) : (first c cs).1.Fits (first c cs).2 := by
  have hbegins := begins_first c cs
  obtain ⟨p, rest, hfirst⟩ : ∃ p rest, first c cs = (p, rest) := ⟨_, _, rfl⟩
  rw [hfirst] at hbegins ⊢
  cases hbegins with
  | blank hc =>
    refine .blank (List.cons_ne_nil _ _) (fun d hd => ?_) (head?_dropWhile cs)
    rcases List.mem_cons.mp hd with rfl | hd
    · exact hc
    · exact all_takeWhile cs d hd
  | comment h => exact .comment h
  | token h hstops => exact .token h hstops (fun _ _ h' => h.length_le hstops h') fun _ h' => h.unique h'
  | illegal hc =>
    refine .illegal hc (fun text h hpre => ?_) fun t text after h happend hstops => ?_
    · obtain ⟨more, happend⟩ := hpre
      cases text with
      | nil => cases h
      | cons d text =>
        cases happend
        cases hfirst.symm.trans (first_comment h more)
    · cases text with
      | nil => exact h.ne_nil rfl
      | cons d text =>
        cases happend
        cases hfirst.symm.trans (first_written h hstops)

/-- **Only the first piece of a text fits.** -/
theorem first_of_fits (h : p.Fits rest) (htext : p.text ++ rest = c :: cs) : first c cs = (p, rest) := by
  cases h with
  | @blank text _ hne hall hrest =>
    cases text with
    | nil => exact absurd rfl hne
    | cons d text =>
      have htext : d :: (text ++ rest) = c :: cs := htext
      rw [List.cons.injEq] at htext
      obtain ⟨rfl, rfl⟩ := htext
      have htail : ∀ x ∈ text, isGap x = true := fun x hx => hall x (List.mem_cons_of_mem _ hx)
      simp only [first, hall d (List.mem_cons_self ..), if_true, takeWhile_run htail hrest,
        dropWhile_run htail hrest]
  | @comment text _ h =>
    cases text with
    | nil => cases h
    | cons d text =>
      cases htext
      exact first_comment h rest
  | @token t text _ h hstops _ _ =>
    cases text with
    | nil => exact absurd rfl h.ne_nil
    | cons d text =>
      cases htext
      exact first_written h hstops
  | @illegal d _ hgap hcomment htoken =>
    have htext : d :: rest = c :: cs := htext
    rw [List.cons.injEq] at htext
    obtain ⟨rfl, rfl⟩ := htext
    have happend := first_append d rest
    have hbegins := begins_first d rest
    obtain ⟨p, after, hfirst⟩ : ∃ p after, first d rest = (p, after) := ⟨_, _, rfl⟩
    rw [hfirst] at happend hbegins
    rw [hfirst]
    cases hbegins with
    | blank hc => cases hgap.symm.trans hc
    | comment h => exact absurd ⟨after, happend⟩ (hcomment _ h)
    | token h hstops => exact absurd hstops (htoken _ _ _ h happend)
    | illegal _ => rfl

theorem Fits.text_ne_nil (h : p.Fits rest) : p.text ≠ [] := by
  cases h with
  | blank hne _ _ => exact hne
  | comment h => cases h <;> exact List.cons_ne_nil _ _
  | token h _ _ _ => exact h.ne_nil
  | illegal _ _ _ => exact List.cons_ne_nil _ _

end Piece

def AllFit : List Piece → Prop
  | [] => True
  | p :: ps => p.Fits (ps.flatMap Piece.text) ∧ AllFit ps

theorem allFit_iff {ps : List Piece} :
    AllFit ps ↔ ∀ before p after, ps = before ++ p :: after → p.Fits (after.flatMap Piece.text) := by
  induction ps with
  | nil =>
    refine ⟨fun _ before p after h => ?_, fun _ => trivial⟩
    cases before <;> cases h
  | cons q ps ih =>
    constructor
    · rintro ⟨hq, hps⟩ before p after h
      cases before with
      | nil =>
        cases h
        exact hq
      | cons _ before =>
        cases h
        exact ih.mp hps before p after rfl
    · intro h
      refine ⟨h [] q ps rfl, ih.mpr fun before p after hps => ?_⟩
      exact h (q :: before) p after (congrArg (q :: ·) hps)

theorem flatMap_pieces (cs : List Char) : (pieces cs).flatMap Piece.text = cs := by
  induction cs using pieces_induction with
  | nil => rfl
  | cons c cs ih => rw [pieces_cons, List.flatMap_cons, ih, Piece.first_append]

theorem allFit_pieces (cs : List Char) : AllFit (pieces cs) := by
  induction cs using pieces_induction with
  | nil => trivial
  | cons c cs ih =>
    rw [pieces_cons]
    refine ⟨?_, ih⟩
    rw [flatMap_pieces]
    exact Piece.fits_first c cs

/-- **The pieces of a text are the one way to cut it into pieces that fit.** -/
theorem pieces_iff {cs : List Char} {ps : List Piece} :
    ps.flatMap Piece.text = cs ∧ AllFit ps ↔ ps = pieces cs := by
  constructor
  · rintro ⟨htext, hfit⟩
    induction ps generalizing cs with
    | nil =>
      cases htext
      rfl
    | cons p ps ih =>
      obtain ⟨hp, hps⟩ := hfit
      cases cs with
      | nil => exact absurd (List.append_eq_nil_iff.mp htext).1 hp.text_ne_nil
      | cons c cs =>
        have hfirst := Piece.first_of_fits hp htext
        rw [pieces_cons, hfirst]
        exact congrArg (p :: ·) (ih rfl hps)
  · rintro rfl
    exact ⟨flatMap_pieces cs, allFit_pieces cs⟩

/-! ## lines -/

/-- The line on which piece number `k` starts: one more than the line feeds before it. -/
def lineOf (ps : List Piece) (k : Nat) : Nat := 1 + ((ps.take k).flatMap Piece.text).count '\n'

def Piece.lexeme? (line : Nat) : Piece → Option Lexeme
  | .token t _ => some ⟨line, t⟩
  | _ => none

def Piece.error? (line : Nat) : Piece → Option LexicalError
  | .illegal c => some ⟨line, c⟩
  | _ => none

theorem lexemesOf_eq (xs : List (Nat × Piece)) : lexemesOf xs = xs.filterMap fun x => x.2.lexeme? x.1 := by
  induction xs with
  | nil => rfl
  | cons x xs ih =>
    obtain ⟨n, p⟩ := x
    cases p with
    | token t _ => exact congrArg (⟨n, t⟩ :: ·) ih
    | blank _ | comment _ | illegal _ => exact ih

theorem errorsOf_eq (xs : List (Nat × Piece)) : errorsOf xs = xs.filterMap fun x => x.2.error? x.1 := by
  induction xs with
  | nil => rfl
  | cons x xs ih =>
    obtain ⟨n, p⟩ := x
    cases p with
    | illegal c => exact congrArg (⟨n, c⟩ :: ·) ih
    | blank _ | comment _ | token _ _ => exact ih

/-- The line of each piece can be counted from the start of the text. -/
theorem locate_eq (line : Nat) (ps : List Piece) :
    locate line ps = ps.zipIdx.map fun x => (lineAfter line ((ps.take x.2).flatMap Piece.text), x.1) := by
  induction ps generalizing line with
  | nil => rfl
  | cons p ps ih =>
    rw [locate, ih, List.zipIdx_cons', List.map_cons, List.map_map]
    refine congrArg₂ List.cons rfl (List.map_congr_left fun x _ => ?_)
    simp only [Function.comp, Prod.map, List.take_succ_cons, List.flatMap_cons, lineAfter_append, id]

theorem scan_eq (source : String) : scan source =
    (pieces source.toList).zipIdx.map fun x => (lineOf (pieces source.toList) x.2, x.1) :=
  locate_eq 1 _

theorem lexemes_eq (source : String) : lexemes source = (pieces source.toList).zipIdx.filterMap
    fun x => x.1.lexeme? (lineOf (pieces source.toList) x.2) := by
  rw [lexemes, lexemesOf_eq, scan_eq, List.filterMap_map]
  rfl

theorem lexicalErrors_eq (source : String) : lexicalErrors source = (pieces source.toList).zipIdx.filterMap
    fun x => x.1.error? (lineOf (pieces source.toList) x.2) := by
  rw [lexicalErrors, errorsOf_eq, scan_eq, List.filterMap_map]
  rfl

theorem le_of_mem_locate {line n : Nat} {ps : List Piece} {p : Piece} (h : (n, p) ∈ locate line ps) :
    line ≤ n := by
  rw [locate_eq] at h
  obtain ⟨x, _, hx⟩ := List.mem_map.mp h
  cases hx
  exact Nat.le_add_right ..

/-- **Lines never decrease.** -/
theorem lines_locate (line : Nat) (ps : List Piece) : (locate line ps).Pairwise fun x y => x.1 ≤ y.1 := by
  induction ps generalizing line with
  | nil => exact .nil
  | cons p ps ih =>
    refine List.pairwise_cons.mpr ⟨fun x hx => ?_, ih _⟩
    exact Nat.le_trans (Nat.le_add_right ..) (le_of_mem_locate hx)

theorem Piece.line_of_lexeme? {n : Nat} {p : Piece} {x : Lexeme} (h : p.lexeme? n = some x) : x.line = n := by
  cases p <;> cases h
  rfl

theorem Piece.line_of_error? {n : Nat} {p : Piece} {e : LexicalError} (h : p.error? n = some e) :
    e.line = n := by
  cases p <;> cases h
  rfl

theorem lines_lexemes (source : String) : (lexemes source).Pairwise fun x y => x.line ≤ y.line := by
  rw [lexemes, lexemesOf_eq, List.pairwise_filterMap]
  refine (lines_locate 1 _).imp fun {x y} hle a ha b hb => ?_
  rwa [Piece.line_of_lexeme? ha, Piece.line_of_lexeme? hb]

theorem lines_lexicalErrors (source : String) : (lexicalErrors source).Pairwise fun x y => x.line ≤ y.line := by
  rw [lexicalErrors, errorsOf_eq, List.pairwise_filterMap]
  refine (lines_locate 1 _).imp fun {x y} hle a ha b hb => ?_
  rwa [Piece.line_of_error? ha, Piece.line_of_error? hb]

/-- A doubled quote never closes a string, so that the first quote here opens none. -/
example : pieces "'a''".toList =
    [.illegal '\'', .token (.identifier "a") ['a'], .token (.string "") ['\'', '\'']] := by
  decide +kernel

end PascalStack
