import Mathlib.Data.List.Forall2
import PascalStack.Proofs.Grammar.Language
import PascalStack.Proofs.Token.Written

/-!
# Illegal characters act as blanks

* `blankIllegal`        a source text with a space in place of every illegal character;
* `changed_blanked`     the characters that differ are those that are reported;
* `marks_blanked`       the tokens, with their lines, are the same, and nothing is illegal;
* `filter_sortByLine`   sorting diagnostics by line leaves the order of those of one kind as it was;
* `illegal_as_blanks`   reading and compiling the two texts.
-/

namespace PascalStack

def Piece.blanked : Piece → List Char
  | .blank text => text
  | .comment text => text
  | .token _ text => text
  | .illegal _ => [' ']

def blanked (cs : List Char) : List Char := (pieces cs).flatMap Piece.blanked

/-- A source text with a space in place of every illegal character. -/
def blankIllegal (source : String) : String := String.ofList (blanked source.toList)

/-- Some characters may have become spaces. -/
def Blanks : List Char → List Char → Prop := List.Forall₂ fun c d => d = c ∨ d = ' '

theorem blanks_refl (cs : List Char) : Blanks cs cs := List.forall₂_same.mpr fun _ _ => .inl rfl

theorem blanked_cons (c : Char) (cs : List Char) :
    blanked (c :: cs) = (Piece.first c cs).1.blanked ++ blanked (Piece.first c cs).2 := by
  rw [blanked, pieces_cons, List.flatMap_cons]
  rfl

theorem Piece.blanks_blanked (p : Piece) : Blanks p.text p.blanked := by
  cases p with
  | blank text => exact blanks_refl text
  | comment text => exact blanks_refl text
  | token t text => exact blanks_refl text
  | illegal c => exact .cons (.inr rfl) .nil

theorem blanks_blanked (cs : List Char) : Blanks cs (blanked cs) := by
  induction cs using pieces_induction with
  | nil => exact .nil
  | cons c cs ih =>
    have happend : Blanks ((Piece.first c cs).1.text ++ (Piece.first c cs).2)
        ((Piece.first c cs).1.blanked ++ blanked (Piece.first c cs).2) :=
      List.rel_append (Piece.first c cs).1.blanks_blanked ih
    rwa [Piece.first_append, ← blanked_cons] at happend

/-- A token stops before a text in which some characters have become spaces. -/
theorem Token.stops_blanks {t : Token} {rest rest' : List Char} (h : t.stops rest) (hb : Blanks rest rest') :
    t.stops rest' := by
  -- the first character is the same, or a space
  have hhead : ∀ {P : Char → Prop}, P ' ' → (∀ c ∈ rest.head?, P c) → ∀ c ∈ rest'.head?, P c := by
    intro P hspace hall d hd
    cases hb with
    | nil => cases hd
    | cons hc _ =>
      cases hd
      rcases hc with rfl | rfl
      · exact hall _ rfl
      · exact hspace
  cases t with
  | keyword k => exact hhead (by decide) h
  | identifier name => exact hhead (by decide) h
  | real x => exact hhead (by decide) h
  | string s =>
    have h : ∀ c ∈ rest.head?, c ≠ '\'' := fun c hc he => h (he ▸ hc)
    exact fun he => hhead (P := fun c => c ≠ '\'') (by decide) h '\'' he rfl
  | punct p => exact hhead (by cases p <;> decide) h
  | integer n =>
    refine ⟨hhead (by decide) h.1, fun d r he => ?_⟩
    subst he
    cases hb with
    | @cons a _ _ _ ha htail =>
      cases htail with
      | @cons b _ r _ hb _ =>
        rcases ha with rfl | ha
        · rcases hb with rfl | rfl
          · exact h.2 _ _ rfl
          · decide
        · exact absurd ha (by decide)

/-! ## the characters that are changed -/

def changed (cs ds : List Char) : List Char := ((cs.zip ds).filter fun x => x.1 ≠ x.2).map Prod.fst

theorem changed_append {a b : List Char} (h : a.length = b.length) (cs ds : List Char) :
    changed (a ++ cs) (b ++ ds) = changed a b ++ changed cs ds := by
  rw [changed, List.zip_append h, List.filter_append, List.map_append]
  rfl

theorem changed_self (cs : List Char) : changed cs cs = [] := by
  induction cs with
  | nil => rfl
  | cons c cs ih =>
    rw [changed, List.zip_cons_cons, List.filter_cons_of_neg (by simp)]
    exact ih

def Piece.illegal? : Piece → Option Char
  | .illegal c => some c
  | _ => none

theorem characters_errorsOf (line : Nat) (ps : List Piece) :
    (errorsOf (locate line ps)).map LexicalError.character = ps.filterMap Piece.illegal? := by
  induction ps generalizing line with
  | nil => rfl
  | cons p ps ih =>
    cases p with
    | blank _ => exact ih _
    | comment _ => exact ih _
    | token _ _ => exact ih _
    | illegal c => exact congrArg (c :: ·) (ih _)

theorem Piece.changed_blanked {p : Piece} (h : ∀ c, p = .illegal c → isGap c = false) :
    changed p.text p.blanked = p.illegal?.toList := by
  cases p with
  | blank text => exact changed_self text
  | comment text => exact changed_self text
  | token _ text => exact changed_self text
  | illegal c =>
    have hne : c ≠ ' ' := by
      rintro rfl
      cases h ' ' rfl
    simp [changed, Piece.text, Piece.blanked, Piece.illegal?, hne]

/-- The characters that differ are those that are reported, one after the other. -/
theorem changed_blanked (cs : List Char) :
    changed cs (blanked cs) = (pieces cs).filterMap Piece.illegal? := by
  induction cs using pieces_induction with
  | nil => rfl
  | cons c cs ih =>
    have hbegins := Piece.begins_first c cs
    have hillegal : ∀ d, (Piece.first c cs).1 = .illegal d → isGap d = false := by
      intro d hd
      rw [hd] at hbegins
      generalize (Piece.first c cs).2 = rest at hbegins
      cases hbegins with
      | illegal hc => exact hc
    have hlength := (Piece.first c cs).1.blanks_blanked.length_eq
    have happend := changed_append hlength (Piece.first c cs).2 (blanked (Piece.first c cs).2)
    rw [Piece.first_append, ← blanked_cons, ih, Piece.changed_blanked hillegal] at happend
    rw [happend, pieces_cons, List.filterMap_cons]
    cases (Piece.first c cs).1.illegal? <;> rfl

/-! ## reading the changed text -/

/-- The tokens of the changed text are the same, on the same lines, and nothing in it is illegal. -/
theorem marks_blanked (line : Nat) (cs : List Char) :
    marks line (blanked cs) = (marks line cs).filter fun x => !x.2.isIllegal := by
  induction cs using pieces_induction generalizing line with
  | nil => rfl
  | cons c cs ih =>
    have hbegins := Piece.begins_first c cs
    have hblanked := blanked_cons c cs
    obtain ⟨p, rest, hfirst⟩ : ∃ p rest, Piece.first c cs = (p, rest) := ⟨_, _, rfl⟩
    rw [hfirst] at hbegins hblanked ih
    rw [hblanked]
    cases hbegins with
    | blank hc =>
      have hgaps : ∀ d ∈ c :: cs.takeWhile isGap, isGap d = true := by
        intro d hd
        rcases List.mem_cons.mp hd with rfl | hd
        · exact hc
        · exact all_takeWhile cs d hd
      rw [marks_filler hfirst rfl, ← ih]
      exact marks_gaps hgaps
    | comment h =>
      rw [marks_filler hfirst rfl, ← ih]
      exact marks_comment h
    | token h hstops =>
      rw [marks_mark hfirst rfl, List.filter_cons_of_pos rfl, ← ih]
      exact marks_token h (Token.stops_blanks hstops (blanks_blanked _))
    | illegal hc =>
      have hline : lineAfter line [c] = line := by
        have hne : c ≠ '\n' := by
          rintro rfl
          cases hc
        rw [lineAfter, List.count_singleton, if_neg (by simpa using hne), Nat.add_zero]
      rw [marks_mark hfirst rfl, List.filter_cons_of_neg Bool.noConfusion]
      have hspace : marks line (' ' :: blanked rest) = marks line (blanked rest) := marks_gap rfl
      exact hspace.trans ((ih line).trans (by rw [Piece.text, hline]))

theorem lexemesOf_legal (xs : List (Nat × Piece)) :
    lexemesOf (xs.filter fun x => !x.2.isIllegal) = lexemesOf xs := by
  induction xs with
  | nil => rfl
  | cons x xs ih =>
    obtain ⟨n, p⟩ := x
    cases p with
    | blank _ => exact ih
    | comment _ => exact ih
    | token t _ => exact congrArg (⟨n, t⟩ :: ·) ih
    | illegal _ => exact ih

theorem errorsOf_legal (xs : List (Nat × Piece)) :
    errorsOf (xs.filter fun x => !x.2.isIllegal) = [] := by
  induction xs with
  | nil => rfl
  | cons x xs ih =>
    obtain ⟨n, p⟩ := x
    cases p <;> exact ih

theorem lexemes_blankIllegal (source : String) : lexemes (blankIllegal source) = lexemes source := by
  rw [lexemes, lexemes, scan, scan, ← lexemesOf_marks, ← lexemesOf_marks, blankIllegal,
    String.toList_ofList, marks_blanked, lexemesOf_legal]

theorem lexicalErrors_blankIllegal (source : String) : lexicalErrors (blankIllegal source) = [] := by
  rw [lexicalErrors, scan, ← errorsOf_marks, blankIllegal, String.toList_ofList, marks_blanked,
    errorsOf_legal]

/-! ## diagnostics -/

/-- On no earlier line. -/
def Ascending (ds : List Diagnostic) : Prop := ds.Pairwise fun d e => d.line ≤ e.line

section
variable {d : Diagnostic} {ds : List Diagnostic}

theorem insertByLine_of_le (h : ∀ e ∈ ds, d.line ≤ e.line) : insertByLine d ds = d :: ds := by
  cases ds with
  | nil => rfl
  | cons e ds => rw [insertByLine, if_pos (h e (List.mem_cons_self ..))]

theorem mem_insertByLine {e : Diagnostic} (h : e ∈ insertByLine d ds) : e = d ∨ e ∈ ds := by
  induction ds with
  | nil => exact .inl (List.mem_singleton.mp h)
  | cons x ds ih =>
    rw [insertByLine] at h
    split at h
    · exact List.mem_cons.mp h
    · rcases List.mem_cons.mp h with rfl | h
      · exact .inr (List.mem_cons_self ..)
      · exact (ih h).imp_right (List.mem_cons_of_mem _)

theorem Ascending.insert (h : Ascending ds) : Ascending (insertByLine d ds) := by
  induction ds with
  | nil => exact List.pairwise_singleton ..
  | cons x ds ih =>
    obtain ⟨hx, htail⟩ := List.pairwise_cons.mp h
    rw [insertByLine]
    split
    · rename_i hle
      refine List.pairwise_cons.mpr ⟨fun e he => ?_, h⟩
      rcases List.mem_cons.mp he with rfl | he
      · exact hle
      · exact Nat.le_trans hle (hx e he)
    · rename_i hlt
      refine List.pairwise_cons.mpr ⟨fun e he => ?_, ih htail⟩
      rcases mem_insertByLine he with rfl | he
      · omega
      · exact hx e he

theorem ascending_sortByLine (ds : List Diagnostic) : Ascending (sortByLine ds) := by
  induction ds with
  | nil => exact .nil
  | cons d ds ih => exact ih.insert

theorem filter_insertByLine (p : Diagnostic → Bool) (h : Ascending ds) :
    (insertByLine d ds).filter p = if p d then insertByLine d (ds.filter p) else ds.filter p := by
  induction ds with
  | nil =>
    rw [insertByLine, List.filter_cons]
    rfl
  | cons x ds ih =>
    obtain ⟨hx, htail⟩ := List.pairwise_cons.mp h
    rw [insertByLine]
    split
    · rename_i hle
      have hfirst : insertByLine d ((x :: ds).filter p) = d :: (x :: ds).filter p := by
        refine insertByLine_of_le fun e he => ?_
        rcases List.mem_cons.mp (List.mem_filter.mp he).1 with rfl | he
        · exact hle
        · exact Nat.le_trans hle (hx e he)
      rw [hfirst, List.filter_cons]
    · rename_i hlt
      rw [List.filter_cons, ih htail, List.filter_cons]
      cases p d <;> cases p x <;> simp [insertByLine, hlt]

/-- Sorting leaves those of one kind in their order. -/
theorem filter_sortByLine (p : Diagnostic → Bool) (ds : List Diagnostic) :
    (sortByLine ds).filter p = sortByLine (ds.filter p) := by
  induction ds with
  | nil => rfl
  | cons d ds ih =>
    show (insertByLine d (sortByLine ds)).filter p = _
    rw [filter_insertByLine p (ascending_sortByLine ds), ih, List.filter_cons]
    cases p d <;> rfl

end

theorem filter_illegal (es : List LexicalError) :
    (es.map Diagnostic.ofLexicalError).filter Diagnostic.isSyntactic = [] := by
  induction es with
  | nil => rfl
  | cons e es ih => exact ih

/-- The syntactic diagnostics of a source text depend on its tokens only. -/
theorem syntactic_diagnostics (source : String) :
    (report source).diagnostics.filter Diagnostic.isSyntactic
      = sortByLine ((Grammar.parse (lexemes source)).diagnostics.filter Diagnostic.isSyntactic) := by
  show (sortByLine (_ ++ (lexicalErrors source).map Diagnostic.ofLexicalError)).filter _ = _
  rw [filter_sortByLine, List.filter_append, filter_illegal, List.append_nil]
  rfl

/-- An error without its diagnostics about characters. -/
def CompileError.withoutLexical : CompileError → CompileError
  | .ungrammatical count ds => .ungrammatical count (ds.filter Diagnostic.isSyntactic)
  | .semantic e => .semantic e

/-- What is compiled depends on the tokens only, but for the diagnostics about characters. -/
theorem compile_congr {s s' : String} (h : lexemes s' = lexemes s) :
    (compile s').mapError CompileError.withoutLexical = (compile s).mapError CompileError.withoutLexical := by
  have htree : (report s').tree = (report s).tree := by
    show (Grammar.parse (lexemes s')).result.toOption = (Grammar.parse (lexemes s)).result.toOption
    rw [h]
  have hcount : (report s').errorCount = (report s).errorCount := by
    rw [report_errorCount, report_errorCount, h]
  have hprogram : (report s').program? = (report s).program? := by
    rw [Report.program?, Report.program?, htree, hcount]
  have hdiagnostics : (report s').diagnostics.filter Diagnostic.isSyntactic
      = (report s).diagnostics.filter Diagnostic.isSyntactic := by
    rw [syntactic_diagnostics, syntactic_diagnostics, h]
  show ((report s').accepted >>= assemble).mapError _ = ((report s).accepted >>= assemble).mapError _
  unfold Report.accepted
  rw [hprogram]
  cases (report s).program? with
  | some p => rfl
  | none =>
    show Except.error (CompileError.ungrammatical _ _) = Except.error (CompileError.ungrammatical _ _)
    rw [hcount, hdiagnostics]

/-- **Illegal characters act as blanks.**  Let every character that is reported become a space, and no other
character change.  Then none is reported, the tokens are the same and on the same lines, and the two texts
have the same code, or the same error but for the diagnostics about characters. -/
theorem illegal_as_blanks (source : String) :
    (Blanks source.toList (blankIllegal source).toList ∧
      changed source.toList (blankIllegal source).toList
        = (lexicalErrors source).map LexicalError.character) ∧
    lexicalErrors (blankIllegal source) = [] ∧
    lexemes (blankIllegal source) = lexemes source ∧
    (compile (blankIllegal source)).mapError CompileError.withoutLexical
      = (compile source).mapError CompileError.withoutLexical := by
  have hlexemes := lexemes_blankIllegal source
  refine ⟨⟨?_, ?_⟩, lexicalErrors_blankIllegal source, hlexemes, compile_congr hlexemes⟩
  · rw [blankIllegal, String.toList_ofList]
    exact blanks_blanked _
  · rw [blankIllegal, String.toList_ofList, changed_blanked, lexicalErrors, scan, characters_errorsOf]

end PascalStack
