import Mathlib.Data.List.Perm.Subperm
import PascalStack.Proofs.Grammar.Language
import PascalStack.Proofs.Grammar.Progress

/-!
# Every syntax error is reported once

The parser as a machine that takes one step after another, with no bound on their number, and what its runs
say about the errors that the parser reports.

* `Automaton.Mends`     an error mark is put on a stack, cut back as little as possible;
* `Automaton.Step`      one step: a reduction, a shift, an error found, a token passed over, a repair;
* `Automaton.Ends`      where the machine stops, and with which outcome;
* `Automaton.Sound`     what holds in every reading that is reached, and `Automaton.Sound.step` that it does;
* `Automaton.terminates`      no run goes on for ever;
* `Automaton.reads_iff`       the machine stops with the outcome of the parser, and with that alone;
* `syntax_errors_once`  the errors of a source text.
-/

namespace PascalStack

/-- The errors of a parse: those repaired, then the one that ended it. -/
def Outcome.errors (o : Outcome) : List SyntaxError :=
  o.recovered.map Recovery.error ++
    match o.result with
    | .ok _ => []
    | .error e => [e]

/-- A parse under way: the tokens left, how many came before them, the line of the last of those, the error
for which no repair has been found yet, and the stack. -/
structure Reading where
  rest : List Lexeme
  position : Nat
  line : Nat
  pending : Option Recovery
  config : Config

def Reading.ahead (R : Reading) : Option Terminal := R.rest.head?.map fun x => x.token.terminal

def Reading.start (xs : List Lexeme) : Reading := ⟨xs, 0, 0, none, ⟨[], []⟩⟩

/-- The token at which an error stands, or the end of the tokens. -/
def SyntaxError.At (e : SyntaxError) (tokens : List Lexeme) : Prop :=
  e.position ≤ tokens.length ∧ e.token = tokens[e.position]?.map Lexeme.token

namespace Automaton

/-- An error mark is put on a stack where the lookahead can follow it, and no more is cut off the stack than
has to be. -/
inductive Mends (A : Automaton) (t : Option Terminal) (r : Recovery) :
    List Frame → List Frame → Prop
  | here {stack : List Frame} {e : Nat} (he : A.repair? (topState stack) = some e)
      (hlead : A.Leads t (e :: stack.map Frame.state)) : Mends A t r stack (⟨e, .error, r⟩ :: stack)
  | cut {f : Frame} {rest stack : List Frame}
      (hnot : ∀ e, A.repair? f.state = some e → ¬ A.Leads t (e :: (f :: rest).map Frame.state))
      (h : Mends A t r rest stack) : Mends A t r (f :: rest) stack

/-- One step of a parse, with the repair made in it, if it makes one. -/
inductive Step (A : Automaton) : Reading → List Recovery → Reading → Prop
  | reduce {xs : List Lexeme} {n line rule : Nat} {c c₁ : Config}
      (hm : A.move (topState c.stack) (Reading.ahead ⟨xs, n, line, none, c⟩) = .reduce rule)
      (hr : A.reduce rule c = some c₁) :
      Step A ⟨xs, n, line, none, c⟩ [] ⟨xs, n, line, none, c₁⟩
  | shift {x : Lexeme} {xs : List Lexeme} {n line q : Nat} {c : Config}
      (hm : A.move (topState c.stack) (some x.token.terminal) = .shift q) :
      Step A ⟨x :: xs, n, line, none, c⟩ [] ⟨xs, n + 1, x.line, none, Automaton.shift q x.token c⟩
  | detect {xs : List Lexeme} {n line : Nat} {c : Config}
      (hm : A.move (topState c.stack) (Reading.ahead ⟨xs, n, line, none, c⟩) = .fail) :
      Step A ⟨xs, n, line, none, c⟩ [] ⟨xs, n, line, some ⟨A.errorAt n
        ((xs.head?.map Lexeme.line).getD line) (xs.head?.map Lexeme.token) c, []⟩, c⟩
  | pass {x : Lexeme} {xs : List Lexeme} {n line : Nat} {r : Recovery} {c : Config}
      (hnot : ∀ stack, ¬ A.Mends (some x.token.terminal) r c.stack stack) :
      Step A ⟨x :: xs, n, line, some r, c⟩ []
        ⟨xs, n + 1, x.line, some ⟨r.error, r.dropped ++ [x]⟩, c⟩
  | repair {xs : List Lexeme} {n line : Nat} {r : Recovery} {c : Config} {stack : List Frame}
      (hmends : A.Mends (Reading.ahead ⟨xs, n, line, some r, c⟩) r c.stack stack) :
      Step A ⟨xs, n, line, some r, c⟩ [r] ⟨xs, n, line, none, ⟨stack, c.recovered⟩⟩

inductive Steps (A : Automaton) : Reading → List Recovery → Reading → Prop
  | refl (R : Reading) : Steps A R [] R
  | step {R R₁ R₂ : Reading} {made more : List Recovery} (h : A.Step R made R₁)
      (hs : Steps A R₁ more R₂) : Steps A R (made ++ more) R₂

/-- Where a parse ends: with a program, or with an error that could not be repaired before the end of the
tokens. -/
inductive Ends (A : Automaton) : Reading → Outcome → Prop
  | accept {n line : Nat} {c : Config} {p : Program} (hm : A.move (topState c.stack) none = .accept)
      (hp : c.stack.head?.bind Frame.program? = some p) :
      Ends A ⟨[], n, line, none, c⟩ ⟨.ok p, c.recovered⟩
  | fatal {n line : Nat} {r : Recovery} {c : Config} (hnot : ∀ stack, ¬ A.Mends none r c.stack stack) :
      Ends A ⟨[], n, line, some r, c⟩ ⟨.error r.error, c.recovered⟩

/-- The machine, started on some tokens, makes the repairs and stops with the outcome. -/
def Reads (A : Automaton) (xs : List Lexeme) (repairs : List Recovery) (o : Outcome) : Prop :=
  ∃ R, A.Steps (.start xs) repairs R ∧ A.Ends R o

section
variable {A : Automaton} {t : Option Terminal} {r : Recovery}

/-! ## repairs -/

/-- The stack after a repair. -/
theorem Mends.eq {stack stack₁ : List Frame} (h : A.Mends t r stack stack₁) :
    ∃ base e, base <:+ stack ∧ stack₁ = ⟨e, .error, r⟩ :: base ∧
      A.repair? (topState base) = some e ∧ A.Leads t (e :: base.map Frame.state) := by
  induction h with
  | @here stack e he hlead => exact ⟨stack, e, List.suffix_rfl, rfl, he, hlead⟩
  | cut _ _ ih =>
    obtain ⟨base, e, hbase, h⟩ := ih
    exact ⟨base, e, hbase.trans (List.suffix_cons ..), h⟩

theorem Mends.linked {stack stack₁ : List Frame} (h : A.Mends t r stack stack₁) (hl : A.Linked stack) :
    A.Linked stack₁ := by
  obtain ⟨base, e, ⟨cut, rfl⟩, rfl, he, -⟩ := h.eq
  exact ⟨he, hl.of_append⟩

theorem Mends.unique {stack stack₁ stack₂ : List Frame} (h₁ : A.Mends t r stack stack₁)
    (h₂ : A.Mends t r stack stack₂) : stack₁ = stack₂ := by
  induction h₁ with
  | here he hlead =>
    cases h₂ with
    | here he' _ =>
      cases he.symm.trans he'
      rfl
    | cut hnot _ => exact absurd hlead (hnot _ he)
  | cut hnot _ ih =>
    cases h₂ with
    | here he hlead => exact absurd hlead (hnot _ he)
    | cut _ h₂ => exact ih h₂

/-- The search for a place to go on finds one iff there is one. -/
theorem Viable.repair_iff (hV : A.Viable) (hG : A.Graded) {stack stack₁ : List Frame}
    (hl : A.Linked stack) : A.repair t r stack = some stack₁ ↔ A.Mends t r stack stack₁ := by
  have hlead : ∀ {stack e}, A.Linked stack → A.repair? (topState stack) = some e →
      (A.leads t (e :: stack.map Frame.state) = true ↔ A.Leads t (e :: stack.map Frame.state)) :=
    fun {stack e} hl he => @Viable.leads_iff _ _ hV hG (⟨e, .error, r⟩ :: stack) ⟨he, hl⟩
  have hhere : ∀ {stack stack₁}, A.Linked stack → (A.repairHere t r stack = some stack₁ ↔
      ∃ e, A.repair? (topState stack) = some e ∧ A.Leads t (e :: stack.map Frame.state) ∧
        stack₁ = ⟨e, .error, r⟩ :: stack) := by
    intro stack stack₁ hl
    rw [repairHere, Option.bind_eq_some_iff]
    refine exists_congr fun e => and_congr_right fun he => ?_
    rw [← hlead hl he, Option.ite_none_right_eq_some, Option.some.injEq]
    exact and_congr_right' eq_comm
  induction stack with
  | nil =>
    rw [repair, hhere hl]
    constructor
    · rintro ⟨e, he, h, rfl⟩
      exact .here he h
    · intro h
      cases h with
      | here he h => exact ⟨_, he, h, rfl⟩
  | cons f rest ih =>
    rw [repair]
    cases hr : A.repairHere t r (f :: rest) with
    | some stack₂ =>
      obtain ⟨e, he, h, rfl⟩ := (hhere hl).mp hr
      have hmends := Mends.here (r := r) he h
      refine ⟨fun heq => ?_, fun h => congrArg some (hmends.unique h)⟩
      cases heq
      exact hmends
    | none =>
      have hnot : ∀ e, A.repair? f.state = some e →
          ¬ A.Leads t (e :: (f :: rest).map Frame.state) := by
        intro e he h
        have hsome := (hhere hl).mpr ⟨e, he, h, rfl⟩
        cases hr.symm.trans hsome
      refine (ih hl.2).trans ⟨.cut hnot, fun h => ?_⟩
      cases h with
      | here he h => exact absurd h (hnot _ he)
      | cut _ h => exact h

/-! ## what holds in every reading -/

/-- How far the repair of errors has come.  The repairs made so far are those whose error mark has been
reduced, and the one whose mark is on top of the stack. -/
inductive Stage (A : Automaton) (made : List Recovery) : Reading → Prop
  | plain {xs : List Lexeme} {n line : Nat} {c : Config} (hu : Unmarked c.stack)
      (hmade : c.recovered = made) (hlt : ∀ r ∈ made, r.error.position < n) :
      Stage A made ⟨xs, n, line, none, c⟩
  | pending {xs : List Lexeme} {n line : Nat} {r : Recovery} {c : Config} (hu : Unmarked c.stack)
      (hmade : c.recovered = made) (hlt : ∀ s ∈ made, s.error.position < r.error.position)
      (hle : r.error.position ≤ n) : Stage A made ⟨xs, n, line, some r, c⟩
  | marked {xs : List Lexeme} {n line e : Nat} {r : Recovery} {base : List Frame}
      {recovered : List Recovery} (hu : Unmarked base) (hmade : recovered ++ [r] = made)
      (hlead : A.Leads (Reading.ahead ⟨xs, n, line, none, ⟨⟨e, .error, r⟩ :: base, recovered⟩⟩)
        (e :: base.map Frame.state))
      (hle : ∀ s ∈ made, s.error.position ≤ n) :
      Stage A made ⟨xs, n, line, none, ⟨⟨e, .error, r⟩ :: base, recovered⟩⟩
  | mended {xs : List Lexeme} {n line : Nat} {c : Config} (hu : Unmarked c.stack)
      (hmade : c.recovered = made)
      (hlead : A.Leads (Reading.ahead ⟨xs, n, line, none, c⟩) (c.stack.map Frame.state))
      (hle : ∀ r ∈ made, r.error.position ≤ n) : Stage A made ⟨xs, n, line, none, c⟩

/-- A reading of some tokens, with the repairs made so far. -/
structure Sound (A : Automaton) (tokens : List Lexeme) (made : List Recovery) (R : Reading) :
    Prop where
  rest : tokens.drop R.position = R.rest
  position : R.position ≤ tokens.length
  linked : A.Linked R.config.stack
  stage : A.Stage made R
  ordered : (made.map fun r => r.error.position).Pairwise (· < ·)
  at_made : ∀ r ∈ made, r.error.At tokens
  at_pending : ∀ r ∈ R.pending, r.error.At tokens

theorem sound_start (tokens : List Lexeme) : A.Sound tokens [] (.start tokens) where
  rest := rfl
  position := Nat.zero_le _
  linked := trivial
  stage := .plain (List.forall_mem_nil _) rfl (List.forall_mem_nil _)
  ordered := .nil
  at_made := List.forall_mem_nil _
  at_pending := by
    intro r hr
    cases hr

/-- Without error marks on the stack a reduction repairs nothing. -/
theorem reduce_unmarked {rule : Nat} {c c₁ : Config} (hu : Unmarked c.stack)
    (h : A.reduce rule c = some c₁) : Unmarked c₁.stack ∧ c₁.recovered = c.recovered := by
  obtain ⟨r, v, state, _, _, _, rfl⟩ := reduce_eq_some.mp h
  constructor
  · intro f hf
    rcases List.mem_cons.mp hf with rfl | hf
    · exact Symbol.noConfusion
    · exact hu f (List.mem_of_mem_drop hf)
  · have hnone : (c.stack.take r.rhs.length).reverse.filterMap Frame.recovery? = [] :=
      List.filterMap_eq_nil_iff.mpr fun f hf =>
        recovery?_eq_none (hu f (List.mem_of_mem_take (List.mem_reverse.mp hf)))
    simp only [hnone, List.append_nil]

/-- An error mark is reduced by the first reduction after it, which completes the repair. -/
theorem Viable.reduce_mark (hV : A.Viable) {rule e : Nat} {base : List Frame}
    {recovered : List Recovery} {c₁ : Config} (hl : A.Linked (⟨e, .error, r⟩ :: base))
    (hu : Unmarked base) (hm : A.move e t = .reduce rule)
    (h : A.reduce rule ⟨⟨e, .error, r⟩ :: base, recovered⟩ = some c₁) :
    Unmarked c₁.stack ∧ c₁.recovered = recovered ++ [r] := by
  rcases hV.mark _ e t hl.1 with hfail | ⟨rule', rl, hm', hrule, hrhs⟩
  · cases hfail.symm.trans hm
  · cases hm'.symm.trans hm
    obtain ⟨rl', v, state, hrule', _, _, rfl⟩ := reduce_eq_some.mp h
    cases hrule.symm.trans hrule'
    rw [hrhs]
    refine ⟨fun f hf => ?_, rfl⟩
    rcases List.mem_cons.mp hf with rfl | hf
    · exact Symbol.noConfusion
    · exact hu f hf

theorem Stage.reduce (hV : A.Viable) {made : List Recovery} {xs : List Lexeme} {n line rule : Nat}
    {c c₁ : Config} (hl : A.Linked c.stack) (h : A.Stage made ⟨xs, n, line, none, c⟩)
    (hm : A.move (topState c.stack) (Reading.ahead ⟨xs, n, line, none, c⟩) = .reduce rule)
    (hr : A.reduce rule c = some c₁) : A.Stage made ⟨xs, n, line, none, c₁⟩ := by
  have hlead := leads_reduce hm hr
  cases h with
  | plain hu hmade hlt =>
    obtain ⟨hu₁, hrec⟩ := reduce_unmarked hu hr
    exact .plain hu₁ (hrec.trans hmade) hlt
  | marked hu hmade hl₀ hle =>
    obtain ⟨hu₁, hrec⟩ := hV.reduce_mark hl hu hm hr
    exact .mended hu₁ (hrec.trans hmade) (hlead.mp hl₀) hle
  | mended hu hmade hl₀ hle =>
    obtain ⟨hu₁, hrec⟩ := reduce_unmarked hu hr
    exact .mended hu₁ (hrec.trans hmade) (hlead.mp hl₀) hle

theorem unmarked_shift {c : Config} {q : Nat} {x : Token} (hu : Unmarked c.stack) :
    Unmarked (Automaton.shift q x c).stack := by
  intro f hf
  rcases List.mem_cons.mp hf with rfl | hf
  · exact Symbol.noConfusion
  · exact hu f hf

/-- After a shift the errors repaired so far all lie behind. -/
theorem Stage.shift (hV : A.Viable) {made : List Recovery} {x : Lexeme} {xs : List Lexeme}
    {n line q : Nat} {c : Config} (hl : A.Linked c.stack)
    (h : A.Stage made ⟨x :: xs, n, line, none, c⟩)
    (hm : A.move (topState c.stack) (some x.token.terminal) = .shift q) :
    A.Stage made ⟨xs, n + 1, x.line, none, Automaton.shift q x.token c⟩ := by
  cases h with
  | plain hu hmade hlt =>
    exact .plain (unmarked_shift hu) hmade fun r hr => Nat.lt_succ_of_lt (hlt r hr)
  | @marked _ _ _ e _ _ _ hu hmade hlead hle =>
    have hm : A.move e _ = _ := hm
    rcases hV.mark _ e (some x.token.terminal) hl.1 with hfail | ⟨_, _, hred, _⟩
    · cases hfail.symm.trans hm
    · cases hred.symm.trans hm
  | mended hu hmade hlead hle =>
    exact .plain (unmarked_shift hu) hmade fun r hr => Nat.lt_succ_of_le (hle r hr)

/-- An error is found only behind the errors repaired so far. -/
theorem Stage.detect {made : List Recovery} {xs : List Lexeme} {n line : Nat} {c : Config}
    (h : A.Stage made ⟨xs, n, line, none, c⟩)
    (hm : A.move (topState c.stack) (Reading.ahead ⟨xs, n, line, none, c⟩) = .fail)
    (hr : r.error.position = n) : A.Stage made ⟨xs, n, line, some r, c⟩ := by
  cases h with
  | plain hu hmade hlt => exact .pending hu hmade (fun s hs => hr ▸ hlt s hs) (Nat.le_of_eq hr)
  | marked _ _ hlead _ => exact absurd hm hlead.not_fail
  | mended _ _ hlead _ => exact absurd hm hlead.not_fail

theorem Stage.pass {made : List Recovery} {x : Lexeme} {xs : List Lexeme} {n line : Nat} {c : Config}
    (h : A.Stage made ⟨x :: xs, n, line, some r, c⟩) :
    A.Stage made ⟨xs, n + 1, x.line, some ⟨r.error, r.dropped ++ [x]⟩, c⟩ := by
  cases h with
  | pending hu hmade hlt hle => exact .pending hu hmade hlt (Nat.le_succ_of_le hle)

theorem Stage.pending_last {made : List Recovery} {xs : List Lexeme} {n line : Nat} {c : Config}
    (h : A.Stage made ⟨xs, n, line, some r, c⟩) : ∀ s ∈ made, s.error.position < r.error.position := by
  cases h with
  | pending _ _ hlt _ => exact hlt

/-- A repair leaves its mark on top of the stack. -/
theorem Stage.repair {made : List Recovery} {xs : List Lexeme} {n line : Nat} {c : Config}
    {stack : List Frame} (h : A.Stage made ⟨xs, n, line, some r, c⟩)
    (hmends : A.Mends (Reading.ahead ⟨xs, n, line, some r, c⟩) r c.stack stack) :
    A.Stage (made ++ [r]) ⟨xs, n, line, none, ⟨stack, c.recovered⟩⟩ := by
  obtain ⟨base, e, hbase, rfl, -, hlead⟩ := hmends.eq
  cases h with
  | pending hu hmade hlt hle =>
    refine .marked (fun f hf => hu f (hbase.mem hf)) (by rw [hmade]) hlead ?_
    exact List.forall_mem_append.mpr
      ⟨fun s hs => Nat.le_of_lt (Nat.lt_of_lt_of_le (hlt s hs) hle), List.forall_mem_singleton.mpr hle⟩

/-- The tokens after the first of those left. -/
theorem drop_succ_of_drop {tokens xs : List Lexeme} {x : Lexeme} {n : Nat} (h : tokens.drop n = x :: xs) :
    tokens.drop (n + 1) = xs ∧ n + 1 ≤ tokens.length := by
  have hlen := congrArg List.length h
  rw [List.length_drop, List.length_cons] at hlen
  refine ⟨?_, by omega⟩
  rw [← List.drop_drop, h, List.drop_one, List.tail_cons]

/-- A step keeps what holds of a reading. -/
theorem Sound.step (hV : A.Viable) {tokens : List Lexeme} {made more : List Recovery}
    {R R₁ : Reading} (h : A.Sound tokens made R) (hs : A.Step R more R₁) :
    A.Sound tokens (made ++ more) R₁ := by
  obtain ⟨hrest, hposition, hlinked, hstage, hordered, hmade, hpending⟩ := h
  cases hs with
  | reduce hm hr =>
    rw [List.append_nil]
    exact ⟨hrest, hposition, hlinked.reduce hr, hstage.reduce hV hlinked hm hr, hordered, hmade, hpending⟩
  | shift hm =>
    rw [List.append_nil]
    obtain ⟨hrest', hposition'⟩ := drop_succ_of_drop hrest
    exact ⟨hrest', hposition', linked_shift hlinked hm, hstage.shift hV hlinked hm, hordered, hmade,
      hpending⟩
  | @detect xs n line c hm =>
    rw [List.append_nil]
    refine ⟨hrest, hposition, hlinked, hstage.detect hm rfl, hordered, hmade, ?_⟩
    intro r hr
    cases hr
    refine ⟨hposition, ?_⟩
    have hrest : tokens.drop n = xs := hrest
    show xs.head?.map Lexeme.token = tokens[n]?.map Lexeme.token
    rw [← hrest, List.head?_drop]
  | @pass _ _ _ _ r _ _ =>
    rw [List.append_nil]
    obtain ⟨hrest', hposition'⟩ := drop_succ_of_drop hrest
    refine ⟨hrest', hposition', hlinked, hstage.pass, hordered, hmade, ?_⟩
    intro s hs
    cases hs
    exact hpending r rfl
  | @repair _ _ _ r _ _ hmends =>
    refine ⟨hrest, hposition, hmends.linked hlinked, hstage.repair hmends, ?_, ?_, nofun⟩
    · rw [List.map_append, List.pairwise_append]
      refine ⟨hordered, List.pairwise_singleton .., fun a ha b hb => ?_⟩
      obtain ⟨s, hs, rfl⟩ := List.mem_map.mp ha
      cases List.mem_singleton.mp hb
      exact hstage.pending_last s hs
    · exact List.forall_mem_append.mpr ⟨hmade, List.forall_mem_singleton.mpr (hpending r rfl)⟩

/-- What holds at the start holds wherever the machine gets. -/
theorem Sound.steps (hV : A.Viable) {tokens : List Lexeme} {made more : List Recovery}
    {R R₁ : Reading} (h : A.Sound tokens made R) (hs : A.Steps R more R₁) :
    A.Sound tokens (made ++ more) R₁ := by
  induction hs generalizing made with
  | refl R => rwa [List.append_nil]
  | step hstep _ ih =>
    rw [← List.append_assoc]
    exact ih (h.step hV hstep)

/-- Where the machine stops, every repair made has been reported, and the errors stand in order. -/
theorem Sound.ends (hV : A.Viable) {tokens : List Lexeme} {made : List Recovery} {R : Reading}
    {o : Outcome} (h : A.Sound tokens made R) (he : A.Ends R o) :
    o.recovered = made ∧ (o.errors.map SyntaxError.position).Pairwise (· < ·) ∧
      ∀ e ∈ o.errors, e.At tokens := by
  obtain ⟨_, _, hlinked, hstage, hordered, hmade, hpending⟩ := h
  cases he with
  | @accept n line c p hm hp =>
    have hrec : c.recovered = made := by
      cases hstage with
      | plain _ hmade _ => exact hmade
      | mended _ hmade _ _ => exact hmade
      | @marked _ _ _ e _ _ _ _ _ _ _ =>
        have hm : A.move e _ = _ := hm
        rcases hV.mark _ e none hlinked.1 with hfail | ⟨_, _, hred, _⟩
        · cases hfail.symm.trans hm
        · cases hred.symm.trans hm
    subst hrec
    refine ⟨rfl, ?_, fun e he => ?_⟩
    · rwa [Outcome.errors, List.append_nil, List.map_map]
    · rw [Outcome.errors, List.append_nil] at he
      obtain ⟨r, hr, rfl⟩ := List.mem_map.mp he
      exact hmade r hr
  | @fatal n line r c hnot =>
    cases hstage with
    | pending _ hrec hlt _ =>
      subst hrec
      refine ⟨rfl, ?_, fun e he => ?_⟩
      · rw [Outcome.errors, List.map_append, List.map_map, List.pairwise_append]
        refine ⟨hordered, List.pairwise_singleton .., fun a ha b hb => ?_⟩
        obtain ⟨s, hs, rfl⟩ := List.mem_map.mp ha
        cases List.mem_singleton.mp hb
        exact hlt s hs
      · rcases List.mem_append.mp he with he | he
        · obtain ⟨s, hs, rfl⟩ := List.mem_map.mp he
          exact hmade s hs
        · cases List.mem_singleton.mp he
          exact hpending r rfl

/-! ## the machine and the parser -/

def outcome (A : Automaton) (R : Reading) : Outcome :=
  A.parseFrom R.rest R.position R.line R.pending R.config

/-- A step does not change what the parser makes of a reading. -/
theorem outcome_step (hV : A.Viable) (hG : A.Graded) (hM : A.Mendable) {R R₁ : Reading}
    {made : List Recovery} (hl : A.Linked R.config.stack) (h : A.Step R made R₁) :
    A.outcome R = A.outcome R₁ := by
  cases h with
  | @reduce xs n line rule c c₁ hm hr =>
    have hahead : Reading.ahead ⟨xs, n, line, none, c⟩ = ahead (tokensOf xs) := by
      cases xs <;> rfl
    rw [hahead] at hm
    exact parseFrom_eq_of_settle (hG.settle_reduce hl hm hr)
  | shift hm => exact parseFrom_shift (settle_shift hm)
  | @detect xs n line c hm =>
    have hstuck := settle_fail hm
    cases xs with
    | nil =>
      show A.atEnd n line c = A.finishAfter _ c
      have hstuck : A.settle none c = (c, .stuck) := hstuck
      simp only [atEnd, hstuck]
      rfl
    | cons x xs => exact parseFrom_stuck hstuck fun _ hs => Settled.noConfusion hs
  | @pass x xs n line r c hnot =>
    have hnone : A.repair (some x.token.terminal) r c.stack = none :=
      Option.eq_none_iff_forall_ne_some.mpr fun stack hs => hnot stack ((hV.repair_iff hG hl).mp hs)
    exact parseFrom_pending.trans (parseAfter_drop hnone)
  | @repair xs n line r c stack hmends =>
    have hrepair := (hV.repair_iff hG hl).mpr hmends
    cases xs with
    | nil =>
      -- at the end of the tokens nothing is repaired
      have hnot : ¬ Terminal.endsItem none := by
        rintro (h | h) <;> cases h
      cases (hM.repair_none hnot r c.stack).symm.trans hrepair
    | cons x xs =>
      obtain ⟨base, e, _, rfl, _, hlead⟩ := hmends.eq
      have hlinked := (repair_marked c.recovered hl hrepair).2
      obtain ⟨c₁, hsettle | ⟨q, hsettle⟩⟩ := Leads.settle hV hG
        (c := ⟨⟨e, .error, r⟩ :: base, c.recovered⟩) hlinked hlead
      · have hacc := (move_of_settleUpTo hsettle).2 rfl
        cases (accepting_of_move hacc).2
      · exact (parseFrom_pending.trans (parseAfter_repair hrepair hsettle)).trans
          (parseFrom_shift hsettle).symm

theorem outcome_ends (hV : A.Viable) (hG : A.Graded) {R : Reading} {o : Outcome}
    (hl : A.Linked R.config.stack) (h : A.Ends R o) : A.outcome R = o := by
  cases h with
  | @accept n line c p hm hp =>
    have hsettle := settle_accept hm
    show A.atEnd n line c = _
    simp only [atEnd, finish, hsettle, hp]
  | @fatal n line r c hnot =>
    have hnone : A.repair none r c.stack = none :=
      Option.eq_none_iff_forall_ne_some.mpr fun stack hs => hnot stack ((hV.repair_iff hG hl).mp hs)
    show A.finishAfter r c = _
    simp only [finishAfter, hnone]

/-- Nothing is shifted at the end of the tokens. -/
theorem move_none_ne_shift (p q : Nat) : A.move p none ≠ .shift q := by
  intro h
  obtain ⟨row, _, hm⟩ := row_of_move h Move.noConfusion Move.noConfusion
  simp only [Row.move, Option.bind_none] at hm
  split at hm <;> cases hm

/-- The machine never stops but where it has an outcome. -/
theorem Sound.progress (hV : A.Viable) (hR : A.Rooted) {tokens : List Lexeme}
    {made : List Recovery} {R : Reading} (h : A.Sound tokens made R) :
    (∃ o, A.Ends R o) ∨ ∃ more R₁, A.Step R more R₁ := by
  obtain ⟨xs, n, line, pending, c⟩ := R
  cases pending with
  | some r =>
    by_cases hmends : ∃ stack, A.Mends (Reading.ahead ⟨xs, n, line, some r, c⟩) r c.stack stack
    · obtain ⟨stack, hmends⟩ := hmends
      exact .inr ⟨_, _, .repair hmends⟩
    · rw [not_exists] at hmends
      cases xs with
      | nil => exact .inl ⟨_, .fatal hmends⟩
      | cons x xs => exact .inr ⟨_, _, .pass hmends⟩
  | none =>
    cases hm : A.move (topState c.stack) (Reading.ahead ⟨xs, n, line, none, c⟩) with
    | fail => exact .inr ⟨_, _, .detect hm⟩
    | reduce rule =>
      obtain ⟨c₁, hr⟩ := hV.reduce h.linked hm
      exact .inr ⟨_, _, .reduce hm hr⟩
    | accept =>
      obtain ⟨p, hp⟩ := hR.stack_of_accept h.linked hm
      have hnone := (accepting_of_move hm).2
      cases xs with
      | cons x xs => cases hnone
      | nil =>
        have hp : c.stack = _ := hp
        exact .inl ⟨⟨.ok p, c.recovered⟩, .accept hm (by rw [hp]; rfl)⟩
    | shift q =>
      cases xs with
      | cons x xs => exact .inr ⟨_, _, .shift hm⟩
      | nil => exact absurd hm (move_none_ne_shift _ _)

/-! ## runs end -/

open Classical in
/-- Before an error is found, while it is pending, and after it has been repaired. -/
noncomputable def phase (A : Automaton) (R : Reading) : Nat :=
  if R.pending.isSome then 1
  else if A.Leads R.ahead (R.config.stack.map Frame.state) then 0 else 2

/-- What every step makes smaller, the first number counting most. -/
noncomputable def distance (A : Automaton) (R : Reading) : Nat × Nat × Nat :=
  (R.rest.length, A.phase R, potential R.config.stack)

def Closer : Nat × Nat × Nat → Nat × Nat × Nat → Prop :=
  Prod.Lex (· < ·) (Prod.Lex (· < ·) (· < ·))

theorem closer_wf : WellFounded Closer :=
  (Prod.lex Nat.lt_wfRel (Prod.lex Nat.lt_wfRel Nat.lt_wfRel)).wf

theorem Step.closer (hG : A.Graded) {R R₁ : Reading} {made : List Recovery}
    (hl : A.Linked R.config.stack) (h : A.Step R made R₁) :
    Closer (A.distance R₁) (A.distance R) := by
  cases h with
  | @reduce xs n line rule c c₁ hm hr =>
    have hphase : A.phase ⟨xs, n, line, none, c₁⟩ = A.phase ⟨xs, n, line, none, c⟩ := by
      have hlead : A.Leads (Reading.ahead ⟨xs, n, line, none, c₁⟩) (c₁.stack.map Frame.state) ↔
          A.Leads (Reading.ahead ⟨xs, n, line, none, c⟩) (c.stack.map Frame.state) :=
        (leads_reduce hm hr).symm
      simp only [phase]
      rw [propext hlead]
    rw [distance, distance, hphase]
    exact .right _ (.right _ (hG.potential_lt hl hm hr))
  | shift _ => exact .left _ _ (Nat.lt_succ_self _)
  | pass _ => exact .left _ _ (Nat.lt_succ_self _)
  | @detect xs n line c hm =>
    have hphase : A.phase ⟨xs, n, line, none, c⟩ = 2 :=
      (if_neg Bool.noConfusion).trans (if_neg fun hlead => hlead.not_fail hm)
    refine .right _ (.left _ _ ?_)
    rw [hphase]
    exact Nat.one_lt_two
  | @repair xs n line r c stack hmends =>
    obtain ⟨base, e, _, rfl, _, hlead⟩ := hmends.eq
    have hphase : A.phase ⟨xs, n, line, none, ⟨⟨e, .error, r⟩ :: base, c.recovered⟩⟩ = 0 :=
      (if_neg Bool.noConfusion).trans (if_pos hlead)
    refine .right _ (.left _ _ ?_)
    rw [hphase]
    exact Nat.zero_lt_one

def Next (A : Automaton) (R₁ R : Reading) : Prop := ∃ made, A.Step R made R₁

/-- **No run goes on for ever.** -/
theorem Sound.terminates (hV : A.Viable) (hG : A.Graded) {tokens : List Lexeme}
    {made : List Recovery} {R : Reading} (h : A.Sound tokens made R) : Acc A.Next R := by
  induction hd : A.distance R using closer_wf.induction generalizing made R with
  | _ d ih =>
    subst hd
    refine ⟨R, ?_⟩
    rintro R₁ ⟨more, hstep⟩
    exact ih _ (hstep.closer hG h.linked) (h.step hV hstep) rfl

/-- Every run can be carried on to where the machine stops. -/
theorem Sound.reaches (hV : A.Viable) (hG : A.Graded) (hR : A.Rooted) {tokens : List Lexeme}
    {made : List Recovery} {R : Reading} (h : A.Sound tokens made R) :
    ∃ more R₁ o, A.Steps R more R₁ ∧ A.Ends R₁ o := by
  induction h.terminates hV hG generalizing made with
  | intro R _ ih =>
    rcases h.progress hV hR with ⟨o, ho⟩ | ⟨more, R₁, hstep⟩
    · exact ⟨[], R, o, .refl R, ho⟩
    · obtain ⟨rest, R₂, o, hsteps, ho⟩ := ih R₁ ⟨more, hstep⟩ (h.step hV hstep)
      exact ⟨more ++ rest, R₂, o, .step hstep hsteps, ho⟩

theorem Sound.outcome_steps (hV : A.Viable) (hG : A.Graded) (hM : A.Mendable)
    {tokens : List Lexeme} {made more : List Recovery} {R R₁ : Reading}
    (h : A.Sound tokens made R) (hs : A.Steps R more R₁) : A.outcome R = A.outcome R₁ := by
  induction hs generalizing made with
  | refl R => rfl
  | step hstep _ ih => exact (outcome_step hV hG hM h.linked hstep).trans (ih (h.step hV hstep))

/-- **The machine stops with the outcome of the parser, and the repairs it has made are those reported.** -/
theorem reads_iff (hV : A.Viable) (hG : A.Graded) (hM : A.Mendable) (hR : A.Rooted)
    {tokens : List Lexeme} {repairs : List Recovery} {o : Outcome} :
    A.Reads tokens repairs o ↔ o = A.parse tokens ∧ repairs = o.recovered := by
  have hstart := A.sound_start tokens
  have hstop : ∀ {repairs R o}, A.Steps (.start tokens) repairs R → A.Ends R o →
      o = A.parse tokens ∧ repairs = o.recovered := by
    intro repairs R o hsteps hends
    have hsound := hstart.steps hV hsteps
    have houtcome := (hstart.outcome_steps hV hG hM hsteps).trans (outcome_ends hV hG hsound.linked hends)
    exact ⟨houtcome.symm, (hsound.ends hV hends).1.symm⟩
  constructor
  · rintro ⟨R, hsteps, hends⟩
    exact hstop hsteps hends
  · obtain ⟨repairs', R, o', hsteps, hends⟩ := hstart.reaches hV hG hR
    obtain ⟨rfl, rfl⟩ := hstop hsteps hends
    rintro ⟨rfl, rfl⟩
    exact ⟨R, hsteps, hends⟩

/-- The errors of the parser stand in order, each at its own token. -/
theorem parse_errors (hV : A.Viable) (hG : A.Graded) (hM : A.Mendable) (hR : A.Rooted)
    (tokens : List Lexeme) :
    ((A.parse tokens).errors.map SyntaxError.position).Pairwise (· < ·) ∧
      ∀ e ∈ (A.parse tokens).errors, e.At tokens := by
  obtain ⟨R, hsteps, hends⟩ := (reads_iff hV hG hM hR).mpr ⟨rfl, rfl⟩
  exact (((sound_start tokens).steps hV hsteps).ends hV hends).2

end

end Automaton

/-! ## the errors of a source text -/

/-- There are no more errors than tokens, and one at their end. -/
theorem length_le_of_ordered {es : List SyntaxError} {tokens : List Lexeme}
    (h : (es.map SyntaxError.position).Pairwise (· < ·)) (hat : ∀ e ∈ es, e.At tokens) :
    es.length ≤ tokens.length + 1 := by
  have hnodup : (es.map SyntaxError.position).Nodup := h.imp Nat.ne_of_lt
  have hsub : es.map SyntaxError.position ⊆ List.range (tokens.length + 1) := by
    intro n hn
    obtain ⟨e, he, rfl⟩ := List.mem_map.mp hn
    exact List.mem_range.mpr (Nat.lt_succ_of_le (hat e he).1)
  have hle := (hnodup.subperm hsub).length_le
  rwa [List.length_map, List.length_range] at hle

/-- Every error of a parse is counted once. -/
theorem report_errorCount_eq (source : String) :
    (report source).errorCount = (Grammar.parse (lexemes source)).errors.length := by
  rw [report_errorCount, Outcome.diagnostics, Outcome.errors, List.countP_append, countP_recovered,
    List.length_append, List.length_map]
  congr 1
  cases (Grammar.parse (lexemes source)).result with
  | ok p => rfl
  | error e =>
    simp only [List.countP_singleton, isSyntactic_ofSyntaxError, if_true, List.length_singleton]

/-- **Every syntax error is reported once, and parsing ends.**  The runs of the parser end; they end with the
outcome of the parser, and the repairs made are those it reports.  The errors stand in the order of the
tokens, each at its own token or at the end, a tree is lacking iff the last error could not be repaired, and
there are at most as many errors as tokens, and one more. -/
theorem syntax_errors_once (source : String) :
    Acc Grammar.automaton.Next (.start (lexemes source)) ∧
    (∀ repairs o, Grammar.automaton.Reads (lexemes source) repairs o ↔
      o = Grammar.parse (lexemes source) ∧ repairs = o.recovered) ∧
    ((Grammar.parse (lexemes source)).errors.map SyntaxError.position).Pairwise (· < ·) ∧
    (∀ e ∈ (Grammar.parse (lexemes source)).errors, e.At (lexemes source)) ∧
    ((report source).tree = none ↔ ∃ e, (Grammar.parse (lexemes source)).result = .error e) ∧
    (report source).errorCount = (Grammar.parse (lexemes source)).errors.length ∧
    (report source).errorCount ≤ (lexemes source).length + 1 := by
  have hV := Grammar.automaton_viable
  have hG := Grammar.automaton_graded
  have hM := Grammar.automaton_mendable
  have hR := Grammar.automaton_rooted
  obtain ⟨hordered, hat⟩ := Automaton.parse_errors hV hG hM hR (lexemes source)
  have hcount := report_errorCount_eq source
  refine ⟨(Automaton.sound_start _).terminates hV hG, fun repairs o => Automaton.reads_iff hV hG hM hR,
    hordered, hat, ?_, hcount, hcount ▸ length_le_of_ordered hordered hat⟩
  show (Grammar.parse (lexemes source)).result.toOption = none ↔ _
  cases (Grammar.parse (lexemes source)).result with
  | ok p => simp [Except.toOption]
  | error e => simp [Except.toOption]

end PascalStack
