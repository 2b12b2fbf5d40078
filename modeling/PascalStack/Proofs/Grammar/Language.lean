import PascalStack.Session
import PascalStack.Proofs.Grammar.Accept

/-!
# Programs and the grammar

A source text has a tree iff its tokens can be derived from the grammar, and the tree is what the actions
of the rules compute along the one derivation there is.

* `Grammar.IsDerivation`   a derivation of a program from the tokens of a source text;
* `accepted_eq_ok_iff`     trees are handed on only from parses without repairs;
* `compile_eq_ok_iff`      and only such trees are compiled;
* `accepted_iff_derivation`   the statement above.
-/

namespace PascalStack

/-! ## diagnostics -/

theorem countP_insertByLine (f : Diagnostic → Bool) (d : Diagnostic) (ds : List Diagnostic) :
    (insertByLine d ds).countP f = (d :: ds).countP f := by
  induction ds with
  | nil => rfl
  | cons x xs ih =>
    rw [insertByLine]
    split
    · rfl
    · simp only [List.countP_cons] at ih ⊢
      omega

/-- Sorting keeps what is counted. -/
theorem countP_sortByLine (f : Diagnostic → Bool) (ds : List Diagnostic) :
    (sortByLine ds).countP f = ds.countP f := by
  induction ds with
  | nil => rfl
  | cons d ds ih =>
    show (insertByLine d (sortByLine ds)).countP f = _
    rw [countP_insertByLine, List.countP_cons, List.countP_cons, ih]

theorem isSyntactic_ofSyntaxError (e : SyntaxError) (n : Nat) :
    (Diagnostic.ofSyntaxError e n).isSyntactic = true := by
  unfold Diagnostic.ofSyntaxError
  split <;> rfl

theorem countP_illegal (es : List LexicalError) :
    (es.map Diagnostic.ofLexicalError).countP Diagnostic.isSyntactic = 0 := by
  refine List.countP_eq_zero.mpr fun d hd => ?_
  obtain ⟨e, _, rfl⟩ := List.mem_map.mp hd
  exact nofun

/-- Every repair, and the error that ends a parse, is counted. -/
theorem report_errorCount (source : String) :
    (report source).errorCount
      = (Grammar.parse (lexemes source)).diagnostics.countP Diagnostic.isSyntactic := by
  show (sortByLine _).countP _ = _
  rw [countP_sortByLine, List.countP_append, countP_illegal, Nat.add_zero]
  rfl

/-- Every repair is an error. -/
theorem countP_recovered (rs : List Recovery) :
    (rs.map Diagnostic.ofRecovery).countP Diagnostic.isSyntactic = rs.length := by
  refine (List.countP_eq_length.mpr fun d hd => ?_).trans (List.length_map ..)
  obtain ⟨r, _, rfl⟩ := List.mem_map.mp hd
  exact isSyntactic_ofSyntaxError _ _

theorem diagnostics_eq_zero_iff {o : Outcome} :
    o.diagnostics.countP Diagnostic.isSyntactic = 0 ↔ ∃ p, o = .intact p := by
  obtain ⟨result, recovered⟩ := o
  constructor
  · intro h
    rw [Outcome.diagnostics, List.countP_append, countP_recovered] at h
    have hrec : recovered = [] := List.length_eq_zero_iff.mp (Nat.add_eq_zero_iff.mp h).1
    cases result with
    | ok p => exact ⟨p, by rw [hrec]; rfl⟩
    | error e =>
      simp only [List.countP_singleton, isSyntactic_ofSyntaxError] at h
      simp at h
  · rintro ⟨p, h⟩
    rw [h]
    rfl

section
variable {source : String}

/-- A tree is handed on only from a parse in which nothing was repaired. -/
theorem accepted_eq_ok_iff {p : Program} :
    (report source).accepted = .ok p ↔ Grammar.parse (lexemes source) = .intact p := by
  have hcount := report_errorCount source
  have hzero := @diagnostics_eq_zero_iff (Grammar.parse (lexemes source))
  rw [← hcount] at hzero
  constructor
  · intro h
    unfold Report.accepted at h
    split at h
    · rename_i q hq
      cases h
      unfold Report.program? at hq
      split at hq
      · rename_i hnone
        obtain ⟨q, hparse⟩ := hzero.mp hnone
        have htree : (Grammar.parse (lexemes source)).result.toOption = some p := hq
        rw [hparse] at htree ⊢
        cases htree
        rfl
      · cases hq
    · cases h
  · intro h
    have hnone := hzero.mpr ⟨p, h⟩
    have htree : (report source).tree = some p := by
      show (Grammar.parse (lexemes source)).result.toOption = some p
      rw [h]
      rfl
    simp only [Report.accepted, Report.program?, hnone, htree, if_true]

theorem assemble_eq_ok_iff {p : Program} {code : List Line} :
    assemble p = .ok code ↔ compileTree p = .ok code := by
  unfold assemble
  split
  · rename_i hc
    rw [hc]
    exact ⟨fun h => by cases h; rfl, fun h => by cases h; rfl⟩
  · rename_i hc
    rw [hc]
    exact ⟨nofun, nofun⟩

/-- Only a tree that is handed on is compiled. -/
theorem compile_eq_ok_iff {code : List Line} :
    compile source = .ok code ↔
      ∃ p, (report source).accepted = .ok p ∧ compileTree p = .ok code := by
  show (report source).accepted >>= assemble = .ok code ↔ _
  cases (report source).accepted with
  | error e => exact ⟨nofun, nofun⟩
  | ok q =>
    constructor
    · intro h
      exact ⟨q, rfl, assemble_eq_ok_iff.mp h⟩
    · rintro ⟨p, h, hp⟩
      cases h
      exact assemble_eq_ok_iff.mpr hp

end

/-! ## the language -/

/-- The derivation `d` derives a program from the tokens of a source text, and the actions of its
rules compute `p`. -/
def Grammar.IsDerivation (source : String) (d : Derivation) (p : Program) : Prop :=
  Derives Grammar.rules d (.nonterminal .program) (tokensOf (lexemes source)) p

theorem parse_eq_intact_iff_derivation {source : String} {p : Program} :
    Grammar.parse (lexemes source) = .intact p ↔ ∃ d, Grammar.IsDerivation source d p :=
  Automaton.parse_eq_intact_iff Grammar.automaton_complete Grammar.automaton_graded
    Grammar.automaton_rooted

/-- **The trees of source texts are those of the grammar.**  A tree is handed on iff it is derived from
the tokens; the derivation is the only one; and where a repair was made no tree is handed on and no code
produced. -/
theorem accepted_iff_derivation (source : String) :
    (∀ p, (report source).accepted = .ok p ↔ ∃ d, Grammar.IsDerivation source d p) ∧
    (∀ d d' p p', Grammar.IsDerivation source d p → Grammar.IsDerivation source d' p' →
      d = d' ∧ p = p') ∧
    (∀ p, (report source).accepted = .ok p ↔ Grammar.parse (lexemes source) = ⟨.ok p, []⟩) ∧
    ((Grammar.parse (lexemes source)).recovered ≠ [] →
      (∀ p, (report source).accepted ≠ .ok p) ∧ ∀ code, compile source ≠ .ok code) ∧
    (∀ code, compile source = .ok code ↔
      ∃ d p, Grammar.IsDerivation source d p ∧ compileTree p = .ok code) := by
  have haccept : ∀ p, (report source).accepted = .ok p ↔ ∃ d, Grammar.IsDerivation source d p :=
    fun p => accepted_eq_ok_iff.trans parse_eq_intact_iff_derivation
  have hrepaired : (Grammar.parse (lexemes source)).recovered ≠ [] →
      ∀ p, (report source).accepted ≠ .ok p := by
    intro hr p hp
    rw [accepted_eq_ok_iff.mp hp] at hr
    exact hr rfl
  refine ⟨haccept, fun d d' p p' h h' => ?_, fun p => accepted_eq_ok_iff, fun hr => ?_, fun code => ?_⟩
  · exact Grammar.automaton_complete.derives_unique Grammar.automaton_rooted h h'
  · refine ⟨hrepaired hr, fun code hc => ?_⟩
    obtain ⟨p, hp, _⟩ := compile_eq_ok_iff.mp hc
    exact hrepaired hr p hp
  · rw [compile_eq_ok_iff]
    constructor
    · rintro ⟨p, hp, hc⟩
      obtain ⟨d, hd⟩ := (haccept p).mp hp
      exact ⟨d, p, hd, hc⟩
    · rintro ⟨d, p, hd, hc⟩
      exact ⟨p, (haccept p).mpr ⟨d, hd⟩, hc⟩

end PascalStack
