import PascalStack.Proofs.Grammar.Errors
import PascalStack.Proofs.Token.Illegal
import PascalStack.Proofs.Token.Stream

/-!
# Reading a source text on demand

The parser asks for one token at a time.  Illegal characters are noted while the next token is looked for, so
those behind the token at which a parse is given up are never seen.

* `Automaton.offer`      what the parser does with one token;
* `Automaton.readFrom`   a parse that cuts off pieces as it needs them, and the errors noted by then;
* `Automaton.Viable.offer`   a parse is never given up before the end;
* `report_eq_ofReading`  so a report is the same whether it is made on demand or from all tokens;
* `lexical_errors_kept`  no illegal character is lost, and they stand in their order.
-/

namespace PascalStack

/-- What the parser does when it is given a token: it stops, or it asks for the next one. -/
inductive Response where
  | stop (o : Outcome)
  | next (pending : Option Recovery) (c : Config)

namespace Automaton

/-- Tries to go on at a token after an error. -/
def offerAfter (A : Automaton) (x : Lexeme) (r : Recovery) (c : Config) : Response :=
  match A.repair (some x.token.terminal) r c.stack with
  | some stack =>
    match A.settle (some x.token.terminal) ⟨stack, c.recovered⟩ with
    | (c, .shift state) => .next none (shift state x.token c)
    | (c, _) => .stop ⟨.error r.error, c.recovered⟩
  | none => .next (some ⟨r.error, r.dropped ++ [x]⟩) c

def offer (A : Automaton) (x : Lexeme) (position : Nat) (pending : Option Recovery) (c : Config) : Response :=
  match pending with
  | some r => A.offerAfter x r c
  | none =>
    match A.settle (some x.token.terminal) c with
    | (c, .shift state) => .next none (shift state x.token c)
    | (c, _) => A.offerAfter x ⟨A.errorAt position x.line (some x.token) c, []⟩ c

/-- Reads pieces until the parser stops or there are no more; `noted` are the illegal characters passed so
far. -/
def readFrom (A : Automaton) : List (Nat × Piece) → (position line : Nat) → (pending : Option Recovery) →
    Config → (noted : List LexicalError) → Outcome × List LexicalError
  | [], position, line, none, c, noted => (A.atEnd position line c, noted)
  | [], _, _, some r, c, noted => (A.finishAfter r c, noted)
  | (n, .token t _) :: ps, position, _, pending, c, noted =>
    match A.offer ⟨n, t⟩ position pending c with
    | .stop o => (o, noted)
    | .next pending c => readFrom A ps (position + 1) n pending c noted
  | (n, .illegal ch) :: ps, position, line, pending, c, noted =>
    readFrom A ps position line pending c (noted ++ [⟨n, ch⟩])
  | (_, .blank _) :: ps, position, line, pending, c, noted => readFrom A ps position line pending c noted
  | (_, .comment _) :: ps, position, line, pending, c, noted => readFrom A ps position line pending c noted

section
variable {A : Automaton} {x : Lexeme} {rest : List Lexeme} {position line : Nat} {r : Recovery}
  {pending pending' : Option Recovery} {c c' : Config}

theorem parseAfter_of_next (h : A.offerAfter x r c = .next pending' c') :
    A.parseAfter x rest position r c = A.parseFrom rest (position + 1) x.line pending' c' := by
  unfold offerAfter at h
  split at h
  · rename_i hrepair
    split at h
    · rename_i hsettle
      cases h
      exact parseAfter_repair hrepair hsettle
    · cases h
  · rename_i hrepair
    cases h
    exact parseAfter_drop hrepair

/-- A token after which the next one is asked for. -/
theorem parseFrom_of_next (h : A.offer x position pending c = .next pending' c') :
    A.parseFrom (x :: rest) position line pending c = A.parseFrom rest (position + 1) x.line pending' c' := by
  cases pending with
  | some r => exact parseFrom_pending.trans (parseAfter_of_next h)
  | none =>
    simp only [offer] at h
    cases hs : A.settle (some x.token.terminal) c with
    | mk c₁ s =>
      rw [hs] at h
      cases s with
      | shift state =>
        cases h
        exact parseFrom_shift hs
      | accept => exact (parseFrom_stuck hs nofun).trans (parseAfter_of_next h)
      | stuck => exact (parseFrom_stuck hs nofun).trans (parseAfter_of_next h)

theorem linked_settleUpTo {t : Option Terminal} {n : Nat} (hl : A.Linked c.stack) :
    A.Linked (A.settleUpTo t n c).1.stack := by
  induction n generalizing c with
  | zero => exact hl
  | succ n ih =>
    simp only [settleUpTo]
    split
    · exact hl
    · exact hl
    · exact hl
    · split
      · exact ih (hl.reduce ‹_›)
      · exact hl

theorem linked_of_settle {t : Option Terminal} {s : Settled} (hl : A.Linked c.stack)
    (h : A.settle t c = (c', s)) : A.Linked c'.stack := by
  have hlinked := linked_settleUpTo (t := t) (n := budget c.stack.length) hl
  rwa [← settle, h] at hlinked

/-- After a repair the token is shifted. -/
theorem Viable.offerAfter (hV : A.Viable) (hG : A.Graded) (hl : A.Linked c.stack) :
    ∃ pending' c', A.offerAfter x r c = .next pending' c' ∧ A.Linked c'.stack := by
  unfold Automaton.offerAfter
  split
  · rename_i stack hrepair
    obtain ⟨base, e, _, rfl, _, hlead⟩ := ((hV.repair_iff hG hl).mp hrepair).eq
    have hlinked := (repair_marked c.recovered hl hrepair).2
    obtain ⟨c₁, hsettle | ⟨q, hsettle⟩⟩ := Leads.settle hV hG
      (c := ⟨⟨e, .error, r⟩ :: base, c.recovered⟩) hlinked hlead
    · cases (accepting_of_move ((move_of_settleUpTo hsettle).2 rfl)).2
    · rw [hsettle]
      refine ⟨none, _, rfl, linked_shift (linked_of_settle hlinked hsettle) ?_⟩
      exact (move_of_settleUpTo hsettle).1 q rfl
  · exact ⟨_, c, rfl, hl⟩

/-- **The parser never stops at a token.** -/
theorem Viable.offer (hV : A.Viable) (hG : A.Graded) (hl : A.Linked c.stack) :
    ∃ pending' c', A.offer x position pending c = .next pending' c' ∧ A.Linked c'.stack := by
  cases pending with
  | some r => exact hV.offerAfter hG hl
  | none =>
    simp only [Automaton.offer]
    cases hs : A.settle (some x.token.terminal) c with
    | mk c₁ s =>
      have hl₁ := linked_of_settle hl hs
      cases s with
      | shift q => exact ⟨none, _, rfl, linked_shift hl₁ ((move_of_settleUpTo hs).1 q rfl)⟩
      | accept => exact hV.offerAfter hG hl₁
      | stuck => exact hV.offerAfter hG hl₁

/-- A parse on demand has the outcome of the parse of all tokens, and all illegal characters are noted. -/
theorem Viable.readFrom (hV : A.Viable) (hG : A.Graded) {ps : List (Nat × Piece)} {noted : List LexicalError}
    (hl : A.Linked c.stack) : A.readFrom ps position line pending c noted =
      (A.parseFrom (lexemesOf ps) position line pending c, noted ++ errorsOf ps) := by
  induction ps generalizing position line pending c noted with
  | nil =>
    have hnoted : noted ++ errorsOf [] = noted := List.append_nil noted
    rw [hnoted]
    cases pending <;> rfl
  | cons x ps ih =>
    obtain ⟨n, p⟩ := x
    cases p with
    | blank _ => exact ih hl
    | comment _ => exact ih hl
    | illegal ch =>
      have hnoted : noted ++ errorsOf ((n, .illegal ch) :: ps) = noted ++ [⟨n, ch⟩] ++ errorsOf ps :=
        (List.append_cons ..)
      rw [hnoted]
      exact ih hl
    | token t text =>
      have hoffer : ∃ pending' c', A.offer ⟨n, t⟩ position pending c = .next pending' c' ∧ A.Linked c'.stack :=
        hV.offer hG hl
      obtain ⟨pending', c', hnext, hl'⟩ := hoffer
      have hparse : A.parseFrom (lexemesOf ((n, .token t text) :: ps)) position line pending c =
          A.parseFrom (lexemesOf ps) (position + 1) n pending' c' := parseFrom_of_next hnext
      rw [hparse, Automaton.readFrom, hnext]
      exact ih hl'

end

end Automaton

/-! ## reports -/

/-- Reads a source text on demand: the outcome of the parse, and the illegal characters noted by then. -/
def reading (source : String) : Outcome × List LexicalError :=
  Grammar.automaton.readFrom (scan source) 0 0 none ⟨[], []⟩ []

/-- The report of an outcome and the illegal characters noted with it. -/
def Report.ofReading (x : Outcome × List LexicalError) : Report :=
  ⟨x.1.result.toOption, sortByLine (x.1.diagnostics ++ x.2.map Diagnostic.ofLexicalError)⟩

theorem reading_eq (source : String) :
    reading source = (Grammar.parse (lexemes source), lexicalErrors source) :=
  Grammar.automaton_viable.readFrom Grammar.automaton_graded trivial

theorem report_eq_ofReading (source : String) : report source = .ofReading (reading source) := by
  rw [reading_eq]
  rfl

theorem sortByLine_of_ascending {ds : List Diagnostic} (h : Ascending ds) : sortByLine ds = ds := by
  induction ds with
  | nil => rfl
  | cons d ds ih =>
    obtain ⟨hd, hds⟩ := List.pairwise_cons.mp h
    show insertByLine d (sortByLine ds) = d :: ds
    rw [ih hds, insertByLine_of_le hd]

theorem ascending_lexicalErrors (source : String) :
    Ascending ((lexicalErrors source).map Diagnostic.ofLexicalError) :=
  List.pairwise_map.mpr (lines_lexicalErrors source)

theorem filter_lexical (es : List LexicalError) :
    (es.map Diagnostic.ofLexicalError).filter (fun d => !d.isSyntactic) = es.map Diagnostic.ofLexicalError := by
  refine List.filter_eq_self.mpr fun d hd => ?_
  obtain ⟨e, _, rfl⟩ := List.mem_map.mp hd
  rfl

/-- The diagnostics of a parse are about tokens. -/
theorem isSyntactic_of_mem {o : Outcome} {d : Diagnostic} (h : d ∈ o.diagnostics) : d.isSyntactic = true := by
  rcases List.mem_append.mp h with h | h
  · obtain ⟨r, _, rfl⟩ := List.mem_map.mp h
    exact isSyntactic_ofSyntaxError _ _
  · cases hresult : o.result with
    | ok p =>
      rw [hresult] at h
      cases h
    | error e =>
      rw [hresult] at h
      rw [List.mem_singleton.mp h]
      exact isSyntactic_ofSyntaxError _ _

/-- The diagnostics about characters are the illegal characters of the text, in their order. -/
theorem report_lexical (source : String) :
    (report source).lexical = (lexicalErrors source).map Diagnostic.ofLexicalError := by
  have hnone : (Grammar.parse (lexemes source)).diagnostics.filter (fun d => !d.isSyntactic) = [] := by
    refine List.filter_eq_nil_iff.mpr fun d hd => ?_
    rw [isSyntactic_of_mem hd]
    exact Bool.noConfusion
  rw [report_eq_ofReading, reading_eq]
  unfold Report.ofReading Report.lexical
  rw [filter_sortByLine, List.filter_append, hnone, List.nil_append, filter_lexical,
    sortByLine_of_ascending (ascending_lexicalErrors source)]

/-- Without errors in the order of tokens, all diagnostics are about characters. -/
theorem lexical_eq_diagnostics {r : Report} (h : r.errorCount = 0) : r.lexical = r.diagnostics := by
  refine List.filter_eq_self.mpr fun d hd => ?_
  have hnot := List.countP_eq_zero.mp h d hd
  rwa [Bool.not_eq_true', ← Bool.not_eq_true]

/-- A session finds the tokens of its source, and notes the illegal characters. -/
theorem Session.tokens_eq (s : Session) :
    s.tokens = (lexemes s.source, s.note ((lexicalErrors s.source).map Diagnostic.ofLexicalError)) := by
  obtain ⟨l, hdrain, herrors⟩ := Lexer.drain_of reachOfRules s.source
  unfold Session.tokens
  rw [hdrain]
  show ((countErrors 0 (scan s.source)).map Prod.fst, s.note (l.errors.map Diagnostic.ofLexicalError)) = _
  rw [map_fst_countErrors, herrors]
  rfl

/-- **No illegal character is lost.**  A report made on demand is the report made from all tokens, and all
illegal characters have been noted when the parse ends, whether it yields a tree or not.  In the diagnostics,
sorted by line, they stand in the order in which the lexer finds them.  So after a successful compilation a
session has noted what it notes when it is asked for the tokens. -/
theorem lexical_errors_kept (source : String) :
    report source = .ofReading (reading source) ∧
    (reading source).2 = lexicalErrors source ∧
    (report source).lexical = (lexicalErrors source).map Diagnostic.ofLexicalError ∧
    ∀ (s : Session) (code : List Line), s.source = source → s.run.1 = .ok code →
      s.run.2.diagnostics = s.tokens.2.diagnostics := by
  refine ⟨report_eq_ofReading source, congrArg Prod.snd (reading_eq source), report_lexical source, ?_⟩
  rintro s code rfl hcode
  have hcompile : compile s.source = .ok code := hcode
  obtain ⟨p, hp, _⟩ := compile_eq_ok_iff.mp hcompile
  have hcount : (report s.source).errorCount = 0 := by
    rw [report_errorCount, accepted_eq_ok_iff.mp hp]
    rfl
  rw [Session.tokens_eq]
  show s.diagnostics ++ (report s.source).diagnostics = s.diagnostics ++ _
  rw [← lexical_eq_diagnostics hcount, report_lexical]

end PascalStack
