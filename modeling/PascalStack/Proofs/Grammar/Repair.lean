import PascalStack.Proofs.Grammar.Gaps
import PascalStack.Proofs.Grammar.Language
import PascalStack.Proofs.Grammar.Shelter

/-!
# Repairs stay within one statement

An error between a place where a statement may begin and the next `;` is repaired at that place: what was
read since then is given up, and the parser goes on at the `;`.

* `Grammar.settle_item`, `Grammar.settle_error`   a statement, and an error mark, before a `;`;
* `Grammar.parse_pending`   the parser passes over tokens up to the next `;`;
* `Grammar.parse_tangle`    the parser reads other tokens and a `;` where a statement may begin;
* `Grammar.parse_insert`    the same within a whole program;
* `Grammar.repair_is_local`   the outcome is the same but for one repair.
-/

namespace PascalStack

namespace Grammar
open Automaton

def repairRule : Rule := ⟨.item, [.error], fun _ => none⟩

theorem exists_repairRule : ∃ rule : Nat, rules[rule]? = some repairRule := by
  have hrules : (rules.toList.filter fun r => r.lhs = .item).getLast? = some repairRule := rfl
  have hmem := List.mem_of_getLast? hrules
  exact Array.getElem?_of_mem (Array.mem_toList_iff.mp (List.mem_filter.mp hmem).1)

section
variable {s : automaton.Slot} {done : List Stmt} {base : List Cell}

/-- The states in which a statement is being read. -/
def inner (p : Nat) : Prop := automaton.innerStates.testBit p = true

theorem opening_of_open (hopen : s.Open done base) : automaton.Opening (topState (frames base)) := by
  obtain ⟨q, hq, _⟩ := run_statement s hopen
  obtain ⟨rule, hr⟩ := exists_repairRule
  obtain ⟨e, he, _⟩ := automaton_mendable.repair _ q rule repairRule hr rfl hq
  exact Option.isSome_iff_exists.mpr ⟨e, he⟩

/-- A statement at the place, before a `;`, is added to the list. -/
theorem settle_item (hopen : s.Open done base) (hu : Unmarked (frames base))
    (hl : automaton.Linked (frames base)) {q : Nat}
    (hq : automaton.goto? (topState (frames base)) .item = some q) (i : Option Stmt)
    (recovered : List Recovery) :
    automaton.settle (some (.punct .semicolon))
      ⟨⟨q, .nonterminal .item, i⟩ :: frames base, recovered⟩
        = (⟨⟨s.listed, .nonterminal .sequence, done ++ i.toList⟩ :: frames s.under, recovered⟩,
            .shift s.separated) := by
  obtain ⟨q', hq', _, hrun⟩ := run_statement s hopen
  cases hq.symm.trans hq'
  let item : Cell := ⟨⟨q, .nonterminal .item, i⟩, .leaf (.punct .semicolon)⟩
  obtain ⟨tree, hrun⟩ := hrun i item.tree []
  have hitem : Unmarked (frames (item :: base)) := by
    intro f hf
    rcases List.mem_cons.mp hf with rfl | hf
    · exact Symbol.noConfusion
    · exact hu f hf
  have hlinked : automaton.Linked (frames (item :: base)) := ⟨hq, hl⟩
  have hsettle := automaton_graded.settle_run recovered hitem hlinked hrun rfl
  exact hsettle.trans (settle_shift s.shift)

/-- An error mark at the place, before a `;`, is dropped, and the list stays as it was. -/
theorem settle_error (hopen : s.Open done base) (hu : Unmarked (frames base))
    (hl : automaton.Linked (frames base)) (r : Recovery) (recovered : List Recovery) :
    ∃ e, automaton.repair? (topState (frames base)) = some e ∧
      automaton.settle (some (.punct .semicolon)) ⟨⟨e, .error, r⟩ :: frames base, recovered⟩
        = (⟨⟨s.listed, .nonterminal .sequence, done⟩ :: frames s.under, recovered ++ [r]⟩,
            .shift s.separated) := by
  obtain ⟨q, hq, hlive, _⟩ := run_statement s hopen
  obtain ⟨rule, hr⟩ := exists_repairRule
  obtain ⟨e, he, hmove⟩ := automaton_mendable.repair _ q rule repairRule hr rfl hq
  have hred : automaton.reduce rule ⟨⟨e, .error, r⟩ :: frames base, recovered⟩
      = some ⟨⟨q, .nonterminal .item, none⟩ :: frames base, recovered ++ [r]⟩ :=
    reduce_eq_some.mpr ⟨repairRule, none, q, hr, rfl, hq, rfl⟩
  have hsettle := automaton_graded.settle_reduce
    (c := ⟨⟨e, .error, r⟩ :: frames base, recovered⟩) ⟨he, hl⟩ (hmove _ hlive) hred
  have hitem := settle_item hopen hu hl hq none (recovered ++ [r])
  rw [Option.toList_none, List.append_nil] at hitem
  exact ⟨e, he, hsettle.trans hitem⟩

/-- An error is repaired at the place as soon as a `;` comes. -/
theorem repair_within (hopen : s.Open done base) (hu : Unmarked (frames base))
    {extra : List Frame} (h : automaton.Within inner (frames base) extra) (r : Recovery)
    (recovered : List Recovery) :
    ∃ stack, automaton.repair (some (.punct .semicolon)) r (extra ++ frames base) = some stack ∧
      automaton.settle (some (.punct .semicolon)) ⟨stack, recovered⟩
        = (⟨⟨s.listed, .nonterminal .sequence, done⟩ :: frames s.under, recovered ++ [r]⟩,
            .shift s.separated) := by
  obtain ⟨e, he, hsettle⟩ := settle_error hopen hu h.linked.of_append r recovered
  refine ⟨_, h.repair automaton_sheltered ?_, hsettle⟩
  have hleads : automaton.leads (some (.punct .semicolon)) (e :: (frames base).map Frame.state)
      = true :=
    leads_of_settleUpTo (c := ⟨⟨e, .error, r⟩ :: frames base, recovered⟩)
      (by rw [← hsettle]; simp only [settle, List.length_cons, List.length_map])
  simp only [repairHere, he, Option.bind_some, hleads, if_true]

/-- The stack after the list and the `;`. -/
theorem shift_separator (x : Lexeme) (hx : x.token = .punct .semicolon) (ss : List Stmt)
    (recovered : List Recovery) :
    Automaton.shift s.separated x.token
      ⟨⟨s.listed, .nonterminal .sequence, ss⟩ :: frames s.under, recovered⟩
        = ⟨frames (s.resume ss (.leaf (.punct .semicolon))), recovered⟩ := by
  rw [hx]
  rfl

/-- With an error pending, the parser goes on after the next `;`, with the list as it was. -/
theorem parse_pending (hopen : s.Open done base) (hu : Unmarked (frames base))
    {extra : List Frame} (h : automaton.Within inner (frames base) extra) {xs : List Lexeme}
    {g v : List Token} (hxs : tokensOf xs = g ++ .punct .semicolon :: v)
    (hg : ∀ t ∈ g, (Symbol.terminal t.terminal).isOuter = false) (r : Recovery)
    (recovered : List Recovery) (position line : Nat) :
    ∃ r' ys position' line', tokensOf ys = v ∧
      automaton.parseFrom xs position line (some r) ⟨extra ++ frames base, recovered⟩
        = automaton.parseFrom ys position' line' none
            ⟨frames (s.resume done (.leaf (.punct .semicolon))), recovered ++ [r']⟩ := by
  induction g generalizing xs r position line with
  | nil =>
    obtain ⟨x, ys, rfl, hx, rfl⟩ := List.map_eq_cons_iff.mp hxs
    obtain ⟨stack, hrepair, hsettle⟩ := repair_within hopen hu h r recovered
    have hahead : x.token.terminal = .punct .semicolon := by rw [hx]; rfl
    refine ⟨r, ys, position + 1, x.line, rfl, ?_⟩
    rw [← hahead] at hrepair hsettle
    rw [parseFrom_pending,
      parseAfter_repair (c := ⟨extra ++ frames base, recovered⟩) hrepair hsettle,
      shift_separator x hx]
  | cons t g ih =>
    obtain ⟨x, xs, rfl, rfl, hxs'⟩ := List.map_eq_cons_iff.mp hxs
    have hnone := automaton_mendable.repair_none (not_endsItem (hg _ (List.mem_cons_self ..))) r
      (extra ++ frames base)
    rw [parseFrom_pending, parseAfter_drop (c := ⟨extra ++ frames base, recovered⟩) hnone]
    exact ih hxs' (fun t ht => hg t (List.mem_cons_of_mem _ ht)) _ _ _

/-- The same where the error is found. -/
theorem parse_stuck (hopen : s.Open done base) (hu : Unmarked (frames base)) {extra : List Frame}
    (h : automaton.Within inner (frames base) extra) {x : Lexeme} {xs : List Lexeme}
    {g v : List Token} (hxs : tokensOf (x :: xs) = g ++ .punct .semicolon :: v)
    (hg : ∀ t ∈ g, (Symbol.terminal t.terminal).isOuter = false) {c : Config} {found : Settled}
    (hsettle : automaton.settle (some x.token.terminal) c = (⟨extra ++ frames base, []⟩, found))
    (hstuck : ∀ state, found ≠ .shift state) (position line : Nat) :
    ∃ r ys position' line', tokensOf ys = v ∧
      automaton.parseFrom (x :: xs) position line none c
        = automaton.parseFrom ys position' line' none
            ⟨frames (s.resume done (.leaf (.punct .semicolon))), [r]⟩ := by
  rw [parseFrom_stuck hsettle hstuck]
  exact parse_pending hopen hu h hxs hg _ [] position line

/-- The parser reads tokens other than `begin`, `end` and `;`, and then a `;`, where a statement may begin.
Either they are a statement, which is added to the list, or there is one repair, and the list stays as it
was. -/
theorem parse_tangle (hopen : s.Open done base) (hu : Unmarked (frames base)) {extra : List Frame}
    (h : automaton.Within inner (frames base) extra) {xs : List Lexeme} {g v : List Token}
    (hxs : tokensOf xs = g ++ .punct .semicolon :: v)
    (hg : ∀ t ∈ g, (Symbol.terminal t.terminal).isOuter = false) (position line : Nat) :
    ∃ ss repairs ys position' line', tokensOf ys = v ∧
      (repairs = [] ∨ ss = done ∧ ∃ r, repairs = [r]) ∧
      automaton.parseFrom xs position line none ⟨extra ++ frames base, []⟩
        = automaton.parseFrom ys position' line' none
            ⟨frames (s.resume ss (.leaf (.punct .semicolon))), repairs⟩ := by
  induction g generalizing xs extra position line with
  | nil =>
    obtain ⟨x, ys, rfl, hx, rfl⟩ := List.map_eq_cons_iff.mp hxs
    have hahead : x.token.terminal = .punct .semicolon := by rw [hx]; rfl
    rcases h.settle automaton_sheltered automaton_mendable automaton_graded []
        (some x.token.terminal) with ⟨extra', found, hsettle, h'⟩ | ⟨_, q, i, hq, hsettle⟩
    · have hstuck : ∀ state, found ≠ .shift state := by
        rintro state rfl
        have hmove := (move_of_settleUpTo hsettle).1 state rfl
        have hnone := automaton_sheltered.separator _ h'.top
        rw [hahead] at hmove
        simp only [after?, hmove] at hnone
        cases hnone
      obtain ⟨r, ys', position', line', hys, hparse⟩ :=
        parse_stuck hopen hu h' hxs hg hsettle hstuck position line
      exact ⟨done, [r], ys', position', line', hys, .inr ⟨rfl, r, rfl⟩, hparse⟩
    · have hitem := settle_item hopen hu h.linked.of_append hq i []
      rw [← hahead] at hitem
      refine ⟨done ++ i.toList, [], ys, position + 1, x.line, rfl, .inl rfl, ?_⟩
      rw [parseFrom_shift (hsettle.trans hitem), shift_separator x hx]
  | cons t g ih =>
    obtain ⟨x, xs, rfl, rfl, hxs'⟩ := List.map_eq_cons_iff.mp hxs
    have hx := hg _ (List.mem_cons_self ..)
    rcases h.settle automaton_sheltered automaton_mendable automaton_graded []
        (some x.token.terminal) with ⟨extra', found, hsettle, h'⟩ | ⟨hend, _⟩
    · by_cases hshift : ∃ state, found = .shift state
      · obtain ⟨state, rfl⟩ := hshift
        have hmove := (move_of_settleUpTo hsettle).1 state rfl
        have hwithin : automaton.Within inner (frames base)
            (⟨state, .terminal x.token.terminal, x.token.value⟩ :: extra') := by
          have hlinked := linked_shift (c := ⟨extra' ++ frames base, []⟩) h'.linked hmove
          refine ⟨hlinked, h'.opening, fun f hf => ?_⟩
          rcases List.mem_cons.mp hf with rfl | hf
          · exact automaton_sheltered.closed _ _ _ h'.top hlinked.1 hx
          · exact h'.states f hf
        rw [parseFrom_shift hsettle]
        exact ih hwithin hxs' (fun t ht => hg t (List.mem_cons_of_mem _ ht)) _ _
      · obtain ⟨r, ys', position', line', hys, hparse⟩ := parse_stuck hopen hu h' hxs hg hsettle
          (fun state hs => hshift ⟨state, hs⟩) position line
        exact ⟨done, [r], ys', position', line', hys, .inr ⟨rfl, r, rfl⟩, hparse⟩
    · exact absurd hend (not_endsItem hx)

theorem resume_intact (hopen : s.Open done base) (hu : Unmarked (frames base))
    (hl : automaton.Linked (frames base)) (ss : List Stmt) (d : Derivation) :
    Unmarked (frames (s.resume ss d)) ∧ automaton.Linked (frames (s.resume ss d)) := by
  have hunder : Unmarked (frames s.under) ∧ automaton.Linked (frames s.under) := by
    cases hopen with
    | first => exact ⟨hu, hl⟩
    | next _ _ => exact ⟨fun f hf => hu f (List.mem_cons_of_mem _ (List.mem_cons_of_mem _ hf)), hl.2.2⟩
  have hlisted : automaton.Linked (⟨s.listed, .nonterminal .sequence, ss⟩ :: frames s.under) :=
    ⟨s.goto, hunder.2⟩
  refine ⟨fun f hf => ?_, linked_shift (c := ⟨_, []⟩) (x := .punct .semicolon) hlisted s.shift⟩
  rcases List.mem_cons.mp hf with rfl | hf
  · exact Symbol.noConfusion
  · rcases List.mem_cons.mp hf with rfl | hf
    · exact Symbol.noConfusion
    · exact hunder.1 f hf

end

/-- The tokens of a program up to a place where a statement of a compound statement may begin, and
those after it. -/
def StatementGap (u v : List Token) : Prop :=
  ∃ d p, Derives rules d (.nonterminal .program) (u ++ v) p ∧ d.Gap rules u v

theorem isOuter_eq_false {t : Token}
    (h : t ≠ .punct .semicolon ∧ t ≠ .keyword .begin ∧ t ≠ .keyword .end) :
    (Symbol.terminal t.terminal).isOuter = false := by
  obtain ⟨hs, hb, he⟩ := h
  cases t with
  | keyword k =>
    have hb : k ≠ .begin := fun h => hb (h ▸ rfl)
    have he : k ≠ .end := fun h => he (h ▸ rfl)
    simp [Symbol.isOuter, Token.terminal, hb, he]
  | punct m =>
    have hs : m ≠ .semicolon := fun h => hs (h ▸ rfl)
    simp [Symbol.isOuter, Token.terminal, hs]
  | identifier _ => rfl
  | integer _ => rfl
  | real _ => rfl
  | string _ => rfl

/-- With tokens and a `;` put in where a statement may begin there is a program without repairs, or the
same program as before with one repair. -/
theorem parse_insert {d : Derivation} {p : Program} {u v g : List Token} {zs : List Lexeme}
    (hd : Derives rules d (.nonterminal .program) (u ++ v) p) (hgap : d.Gap rules u v)
    (hg : ∀ t ∈ g, (Symbol.terminal t.terminal).isOuter = false)
    (hzs : tokensOf zs = u ++ (g ++ .punct .semicolon :: v)) :
    (∃ q, parse zs = ⟨.ok q, []⟩) ∨ ∃ r, parse zs = ⟨.ok p, [r]⟩ := by
  obtain ⟨s, done, base, fill, hopen, rfl, hreach, hresume⟩ :=
    findsGap hgap hd [] automaton.accepting automaton_rooted.enter
  have hrun : Run automaton [] (tokensOf zs) base (g ++ .punct .semicolon :: v) := by
    rw [hzs]
    exact hreach _
  have hempty : Unmarked (frames []) := List.forall_mem_nil _
  obtain ⟨hu, hl, ys, position, line, hys, hparse⟩ :=
    automaton_graded.parseFrom_run 0 0 [] hempty trivial hrun
  have hwithin : automaton.Within inner (frames base) [] :=
    ⟨hl, opening_of_open hopen, List.forall_mem_nil _⟩
  obtain ⟨ss, repairs, ys', position', line', rfl, hrepairs, htangle⟩ :=
    parse_tangle hopen hu hwithin hys hg position line
  have hend : automaton.move automaton.accepting (ahead []) ≠ .fail := by
    rw [show automaton.move automaton.accepting (ahead []) = .accept from if_pos ⟨rfl, rfl⟩]
    exact Move.noConfusion
  obtain ⟨tree, hrest⟩ := hresume ss (.leaf (.punct .semicolon)) [] hend
  rw [List.append_nil] at hrest
  obtain ⟨hu', hl'⟩ := resume_intact hopen hu hl ss (.leaf (.punct .semicolon))
  have houtcome : parse zs = ⟨.ok (fill ss), repairs⟩ :=
    (hparse.trans htangle).trans (automaton_graded.parseFrom_of_run repairs hu' hl' hrest)
  rcases hrepairs with rfl | ⟨rfl, r, rfl⟩
  · exact .inl ⟨_, houtcome⟩
  · exact .inr ⟨r, houtcome⟩

/-- **A repair is local.**  Tokens other than `;`, `begin` and `end`, and a `;`, are put into a program at
a place where a statement may begin.  If that is not a program, then it has the same tree nevertheless, and
there is one syntax error. -/
theorem repair_is_local {xs zs : List Lexeme} {p : Program} {u v g : List Token}
    (hxs : tokensOf xs = u ++ v) (hp : parse xs = ⟨.ok p, []⟩) (hgap : StatementGap u v)
    (hg : ∀ t ∈ g, t ≠ .punct .semicolon ∧ t ≠ .keyword .begin ∧ t ≠ .keyword .end)
    (hzs : tokensOf zs = u ++ (g ++ .punct .semicolon :: v))
    (hrejected : ∀ q, parse zs ≠ ⟨.ok q, []⟩) :
    (∃ r, parse zs = ⟨.ok p, [r]⟩) ∧
      (parse zs).diagnostics.countP Diagnostic.isSyntactic = 1 ∧
      ∀ source, lexemes source = zs →
        (report source).tree = some p ∧ (report source).errorCount = 1 := by
  obtain ⟨d, p', hd, hgap⟩ := hgap
  obtain ⟨d', hd'⟩ := (parse_eq_intact_iff automaton_complete automaton_graded
    automaton_rooted).mp hp
  rw [hxs] at hd'
  obtain ⟨rfl, rfl⟩ := automaton_complete.derives_unique automaton_rooted hd hd'
  have houtcome : ∃ r, parse zs = ⟨.ok p', [r]⟩ :=
    (parse_insert hd hgap (fun t ht => isOuter_eq_false (hg t ht)) hzs).resolve_left
      fun ⟨q, hq⟩ => hrejected q hq
  obtain ⟨r, hr⟩ := houtcome
  have hcount : (parse zs).diagnostics.countP Diagnostic.isSyntactic = 1 := by
    rw [hr, Outcome.diagnostics, List.append_nil]
    exact countP_recovered [r]
  refine ⟨⟨r, hr⟩, hcount, ?_⟩
  rintro source rfl
  refine ⟨?_, (report_errorCount source).trans hcount⟩
  show (parse (lexemes source)).result.toOption = some p'
  rw [hr]
  rfl

def onOneLine (w : List Token) : List Lexeme := w.map fun t => ⟨1, t⟩

theorem tokensOf_onOneLine (w : List Token) : tokensOf (onOneLine w) = w := by
  simp only [tokensOf, onOneLine, List.map_map, Function.comp_def, List.map_id']

/-- `program p; begin begin`, with a place at the end that is in a nested statement. -/
def nestedStart : List Token :=
  [.keyword .program, .identifier "p", .punct .semicolon, .keyword .begin, .keyword .begin]

/-- `end end.` -/
def nestedEnd : List Token := [.keyword .end, .keyword .end, .punct .dot]

/-- `if )` -/
def brokenIf : List Token := [.keyword .if, .punct .rightParen]

set_option maxRecDepth 10000 in
theorem nested_intact : ∃ p, parse (onOneLine (nestedStart ++ nestedEnd)) = ⟨.ok p, []⟩ :=
  diagnostics_eq_zero_iff.mp (by decide +kernel)

set_option maxRecDepth 10000 in
theorem brokenIf_rejected (q : Program) :
    parse (onOneLine (nestedStart ++ (brokenIf ++ .punct .semicolon :: nestedEnd))) ≠ ⟨.ok q, []⟩ := by
  intro h
  have hcount : (parse (onOneLine (nestedStart ++ (brokenIf ++ .punct .semicolon :: nestedEnd)))
    ).diagnostics.countP Diagnostic.isSyntactic ≠ 0 := by decide +kernel
  exact hcount (diagnostics_eq_zero_iff.mpr ⟨q, h⟩)

theorem nested_gap : StatementGap nestedStart nestedEnd := by
  obtain ⟨p, hp⟩ := nested_intact
  obtain ⟨d, hd⟩ := (parse_eq_intact_iff automaton_complete automaton_graded
    automaton_rooted).mp hp
  rw [tokensOf_onOneLine] at hd
  exact ⟨d, p, hd, gap_of_begin (u := nestedStart.dropLast) hd rfl⟩

theorem repair_is_local_nested :
    ∃ p, parse (onOneLine (nestedStart ++ nestedEnd)) = ⟨.ok p, []⟩ ∧
      (∀ q, parse (onOneLine (nestedStart ++ (brokenIf ++ .punct .semicolon :: nestedEnd)))
        ≠ ⟨.ok q, []⟩) ∧
      ∃ r, parse (onOneLine (nestedStart ++ (brokenIf ++ .punct .semicolon :: nestedEnd)))
        = ⟨.ok p, [r]⟩ := by
  obtain ⟨p, hp⟩ := nested_intact
  refine ⟨p, hp, brokenIf_rejected, ?_⟩
  exact (repair_is_local (tokensOf_onOneLine _) hp nested_gap (by decide)
    (tokensOf_onOneLine _) brokenIf_rejected).1

end Grammar

end PascalStack
