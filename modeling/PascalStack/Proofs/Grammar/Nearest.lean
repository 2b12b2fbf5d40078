import PascalStack.Proofs.Grammar.Errors
import PascalStack.Proofs.Grammar.Names

/-!
# An else belongs to the nearest if

What the actions of all rules keep holds of every value on the stack of the parser, also while it repairs
errors.

* `Automaton.Kept.step`, `Automaton.Kept.steps`   the statement above, `parse_keeps_of_tokens` for the tree returned;
* `Stmt.isOpen`               a statement that an `else` could still follow;
* `Stmt.Part`, `Block.Part`   the statements inside a statement, and inside a block and its functions;
* `rules_nearest`             the rules never put an open statement before an `else`;
* `else_nearest`              so no tree has one there.
-/

namespace PascalStack

/-! ## values on the stack -/

section
variable {good : (X : Symbol) → X.Value → Prop}

/-- An action that is given good values has a good result. -/
theorem feed_keeps {R : Type} {result : R → Prop} {Xs : List Symbol} {f : Action Xs R} {fs : List Frame}
    {a : R} (h : feed Xs f fs = some a) (hf : Keeps good result Xs f)
    (hfs : ∀ g ∈ fs, good g.symbol g.value) : result a := by
  induction Xs generalizing fs with
  | nil =>
    cases fs with
    | nil =>
      cases h
      exact hf
    | cons _ _ => cases h
  | cons X Xs ih =>
    cases fs with
    | nil => cases h
    | cons g fs =>
      obtain ⟨state, Y, y⟩ := g
      by_cases hY : Y = X
      · subst hY
        rw [feed_cons] at h
        have hy := hfs _ (List.mem_cons_self ..)
        exact ih h (hf y hy) fun g hg => hfs g (List.mem_cons_of_mem _ hg)
      · simp only [feed, dif_neg hY] at h
        cases h

namespace Automaton
variable {A : Automaton} {read : Token → Prop}

/-- What is asked of a property so that the parser keeps it: the tokens that are read and error marks have it,
and the actions of all rules keep it. -/
structure Kept (A : Automaton) (read : Token → Prop) (good : (X : Symbol) → X.Value → Prop) : Prop where
  token : ∀ t : Token, read t → good (.terminal t.terminal) t.value
  mark : ∀ r : Recovery, good .error r
  rules : ∀ r ∈ A.rules, Keeps good (good (.nonterminal r.lhs)) r.rhs r.action

theorem Step.mem_rest {R R₁ : Reading} {made : List Recovery} (h : A.Step R made R₁) {x : Lexeme}
    (hx : x ∈ R₁.rest) : x ∈ R.rest := by
  cases h with
  | reduce | detect | repair => exact hx
  | shift | pass => exact List.mem_cons_of_mem _ hx

theorem Kept.step (hA : A.Kept read good) {R R₁ : Reading} {made : List Recovery} (h : A.Step R made R₁)
    (hread : ∀ x ∈ R.rest, read x.token) (hR : ∀ f ∈ R.config.stack, good f.symbol f.value) :
    ∀ f ∈ R₁.config.stack, good f.symbol f.value := by
  cases h with
  | detect _ => exact hR
  | pass _ => exact hR
  | shift _ => exact List.forall_mem_cons.mpr ⟨hA.token _ (hread _ (List.mem_cons_self ..)), hR⟩
  | @reduce xs n line rule c c₁ _ hr =>
    obtain ⟨r, v, state, hrule, hv, _, rfl⟩ := reduce_eq_some.mp hr
    refine List.forall_mem_cons.mpr ⟨?_, fun f hf => hR f (List.mem_of_mem_drop hf)⟩
    refine feed_keeps hv (hA.rules r (Array.mem_of_getElem? hrule)) fun f hf => ?_
    exact hR f (List.mem_of_mem_take (List.mem_reverse.mp hf))
  | @repair xs n line r c stack hmends =>
    obtain ⟨base, e, hbase, rfl, _, _⟩ := hmends.eq
    exact List.forall_mem_cons.mpr ⟨hA.mark r, fun f hf => hR f (hbase.mem hf)⟩

theorem Kept.steps (hA : A.Kept read good) {R R₁ : Reading} {made : List Recovery} (h : A.Steps R made R₁)
    (hread : ∀ x ∈ R.rest, read x.token) (hR : ∀ f ∈ R.config.stack, good f.symbol f.value) :
    ∀ f ∈ R₁.config.stack, good f.symbol f.value := by
  induction h with
  | refl => exact hR
  | step hstep _ ih => exact ih (fun x hx => hread x (hstep.mem_rest hx)) (hA.step hstep hread hR)

end Automaton

/-- **What all rules keep holds of every tree**, whether errors were repaired or not. -/
theorem parse_keeps_of_tokens {read : Token → Prop} (hA : Grammar.automaton.Kept read good)
    {tokens : List Lexeme} (hread : ∀ x ∈ tokens, read x.token) {p : Program}
    (h : (Grammar.parse tokens).result = .ok p) : good (.nonterminal .program) p := by
  obtain ⟨R, hsteps, hends⟩ := (Automaton.reads_iff Grammar.automaton_viable Grammar.automaton_graded
    Grammar.automaton_mendable Grammar.automaton_rooted).mpr
      ⟨(rfl : Grammar.parse tokens = _), (rfl : (Grammar.parse tokens).recovered = _)⟩
  have hall := hA.steps hsteps hread (List.forall_mem_nil _)
  generalize Grammar.parse tokens = o at h hends
  cases hends with
  | fatal _ => cases h
  | @accept n line c q _ hq =>
    cases h
    obtain ⟨f, hf, hq⟩ := Option.bind_eq_some_iff.mp hq
    have hgood := hall f (List.mem_of_mem_head? hf)
    unfold Frame.program? at hq
    split at hq
    · cases hq
      exact hgood
    · cases hq

/-- The same for a property that all tokens have. -/
theorem parse_keeps (hA : Grammar.automaton.Kept (fun _ => True) good) {tokens : List Lexeme} {p : Program}
    (h : (Grammar.parse tokens).result = .ok p) : good (.nonterminal .program) p :=
  parse_keeps_of_tokens hA (fun _ _ => trivial) h

end

/-! ## open statements -/

/-- A statement that an `else` could still follow: it ends in an `if` without one. -/
def Stmt.isOpen : Stmt → Bool
  | .ifThen _ _ => true
  | .ifThenElse _ _ elseBranch => elseBranch.isOpen
  | .whileDo _ body => body.isOpen
  | .forDo _ _ _ _ body => body.isOpen
  | .compound _ | .assign _ _ | .call _ _ => false

/-- A statement is `s`, or is somewhere inside it. -/
inductive Stmt.Part (part : Stmt) : Stmt → Prop
  | self : Part part part
  | compound {body : List Stmt} {s : Stmt} (hs : s ∈ body) (h : Part part s) : Part part (.compound body)
  | ifThen {c : Expr} {s : Stmt} (h : Part part s) : Part part (.ifThen c s)
  | thenBranch {c : Expr} {s t : Stmt} (h : Part part s) : Part part (.ifThenElse c s t)
  | elseBranch {c : Expr} {s t : Stmt} (h : Part part t) : Part part (.ifThenElse c s t)
  | whileDo {c : Expr} {s : Stmt} (h : Part part s) : Part part (.whileDo c s)
  | forDo {x : String} {a b : Expr} {d : Direction} {s : Stmt} (h : Part part s) :
      Part part (.forDo x a d b s)

mutual

/-- A statement is somewhere in a block, or in a function that is declared in it. -/
inductive Block.Part (part : Stmt) : Block → Prop
  | statement {fs : List FunctionDecl} {vs : List VarDecl} {ss : List Stmt} {s : Stmt} (hs : s ∈ ss)
      (h : part.Part s) : Block.Part part (.mk fs vs ss)
  | function {fs : List FunctionDecl} {vs : List VarDecl} {ss : List Stmt} {f : FunctionDecl} (hf : f ∈ fs)
      (h : FunctionDecl.Part part f) : Block.Part part (.mk fs vs ss)

inductive FunctionDecl.Part (part : Stmt) : FunctionDecl → Prop
  | definition {heading : Heading} {block : Block} (h : Block.Part part block) :
      FunctionDecl.Part part (.definition heading block)
  | body {name : String} {block : Block} (h : Block.Part part block) :
      FunctionDecl.Part part (.body name block)

end

/-- Every `else` among some statements belongs to the nearest `if`: no open statement stands before it. -/
def NearestIn (parts : Stmt → Prop) : Prop :=
  ∀ c s t, parts (.ifThenElse c s t) → s.isOpen = false

def Stmt.Nearest (s : Stmt) : Prop := NearestIn fun part => part.Part s
def Block.Nearest (b : Block) : Prop := NearestIn fun part => b.Part part
def FunctionDecl.Nearest (f : FunctionDecl) : Prop := NearestIn fun part => f.Part part

/-- A statement that may stand before an `else`. -/
structure Stmt.Closed (s : Stmt) : Prop where
  closed : s.isOpen = false
  nearest : s.Nearest

section
variable {c : Expr} {s t : Stmt} {ss : List Stmt}

theorem nearest_compound (h : ∀ s ∈ ss, s.Nearest) : (Stmt.compound ss).Nearest := by
  intro c' s' t' hpart
  cases hpart with
  | compound hs hpart => exact h _ hs c' s' t' hpart

theorem nearest_ifThen (h : s.Nearest) : (Stmt.ifThen c s).Nearest := by
  intro c' s' t' hpart
  cases hpart with
  | ifThen hpart => exact h c' s' t' hpart

theorem nearest_ifThenElse (hs : s.Closed) (ht : t.Nearest) : (Stmt.ifThenElse c s t).Nearest := by
  intro c' s' t' hpart
  cases hpart with
  | self => exact hs.closed
  | thenBranch hpart => exact hs.nearest c' s' t' hpart
  | elseBranch hpart => exact ht c' s' t' hpart

theorem nearest_whileDo (h : s.Nearest) : (Stmt.whileDo c s).Nearest := by
  intro c' s' t' hpart
  cases hpart with
  | whileDo hpart => exact h c' s' t' hpart

theorem nearest_withBody (head : ForHead) (h : s.Nearest) : (head.withBody s).Nearest := by
  intro c' s' t' hpart
  cases hpart with
  | forDo hpart => exact h c' s' t' hpart

theorem closed_assign (target : Access) (value : Expr) : (Stmt.assign target value).Closed := by
  refine ⟨rfl, fun c' s' t' hpart => ?_⟩
  cases hpart

theorem closed_call (name : String) (arguments : List Argument) : (Stmt.call name arguments).Closed := by
  refine ⟨rfl, fun c' s' t' hpart => ?_⟩
  cases hpart

theorem nearest_block {fs : List FunctionDecl} (vs : List VarDecl) (hfs : ∀ f ∈ fs, f.Nearest)
    (hss : ∀ s ∈ ss, s.Nearest) : (Block.mk fs vs ss).Nearest := by
  intro c' s' t' hpart
  cases hpart with
  | statement hs hpart => exact hss _ hs c' s' t' hpart
  | function hf hpart => exact hfs _ hf c' s' t' hpart

theorem nearest_definition (heading : Heading) {block : Block} (h : block.Nearest) :
    (FunctionDecl.definition heading block).Nearest := by
  intro c' s' t' hpart
  cases hpart with
  | definition hpart => exact h c' s' t' hpart

theorem nearest_body (name : String) {block : Block} (h : block.Nearest) :
    (FunctionDecl.body name block).Nearest := by
  intro c' s' t' hpart
  cases hpart with
  | body hpart => exact h c' s' t' hpart

theorem nearest_directive (heading : Heading) (d : Directive) : (FunctionDecl.directive heading d).Nearest := by
  intro c' s' t' hpart
  cases hpart

end

/-! ## the rules -/

def Symbol.Nearest : (X : Symbol) → X.Value → Prop
  | .nonterminal .statement, s => Stmt.Nearest s
  | .nonterminal .openStatement, s => Stmt.Nearest s
  | .nonterminal .closedStatement, s => Stmt.Closed s
  | .nonterminal .assignment, s => Stmt.Closed s
  | .nonterminal .procedureCall, s => Stmt.Closed s
  | .nonterminal .item, s => ∀ t ∈ s.toList, Stmt.Nearest t
  | .nonterminal .sequence, ss => ∀ s ∈ ss, Stmt.Nearest s
  | .nonterminal .compound, ss => ∀ s ∈ ss, Stmt.Nearest s
  | .nonterminal .functionDecl, f => FunctionDecl.Nearest f
  | .nonterminal .functionList, fs => ∀ f ∈ fs, FunctionDecl.Nearest f
  | .nonterminal .functionPart, fs => ∀ f ∈ fs, FunctionDecl.Nearest f
  | .nonterminal .block, b => Block.Nearest b
  | .nonterminal .program, p => Block.Nearest p.block
  | _, _ => True

/-- Phrases in whose values there are statements. -/
def Nonterminal.hasStatements : Nonterminal → Bool
  | .statement | .openStatement | .closedStatement | .assignment | .procedureCall | .item | .sequence
  | .compound | .functionDecl | .functionList | .functionPart | .block | .program => true
  | _ => false

theorem Symbol.nearest_of_not_hasStatements {n : Nonterminal} (h : n.hasStatements = false) (v : n.Value) :
    Symbol.Nearest (.nonterminal n) v := by
  cases n <;> trivial

def Rule.KeepsNearest (r : Rule) : Prop :=
  Keeps Symbol.Nearest (Symbol.Nearest (.nonterminal r.lhs)) r.rhs r.action

theorem programRules_nearest : ∀ r ∈ Grammar.programRules, r.KeepsNearest := by
  simp only [Grammar.programRules, List.forall_mem_cons, Rule.KeepsNearest, Keeps, Symbol.Nearest]
  refine ⟨fun _ _ _ _ b hb _ _ => hb, ?_⟩
  simp only [implies_true, true_and]
  exact ⟨fun fs hfs vs _ ss hss => nearest_block vs hfs hss, List.forall_mem_nil _⟩

theorem functionRules_nearest : ∀ r ∈ Grammar.functionRules, r.KeepsNearest := by
  simp only [Grammar.functionRules, List.forall_mem_cons, Rule.KeepsNearest, Keeps, Symbol.Nearest]
  refine ⟨List.forall_mem_nil _, fun fs hfs _ _ => hfs, fun f hf => ⟨hf, List.forall_mem_nil _⟩,
    fun fs hfs _ _ f hf => List.forall_mem_append.mpr ⟨hfs, List.forall_mem_singleton.mpr hf⟩,
    fun h _ _ _ d _ => nearest_directive h d, fun x _ _ _ b hb => nearest_body x hb,
    fun h _ _ _ b hb => nearest_definition h hb, ?_⟩
  simp only [implies_true, true_and, List.not_mem_nil, false_imp_iff]

theorem statementRules_nearest : ∀ r ∈ Grammar.statementRules, r.KeepsNearest := by
  simp only [Grammar.statementRules, List.forall_mem_cons, Rule.KeepsNearest, Keeps, Symbol.Nearest]
  refine ⟨fun _ _ ss hss _ _ => hss, fun s hs => hs,
    fun ss hss _ _ s hs => List.forall_mem_append.mpr ⟨hss, hs⟩, fun s hs => List.forall_mem_singleton.mpr hs,
    fun _ _ => List.forall_mem_nil _, fun s hs => hs, fun s hs => hs.nearest, ?_⟩
  -- open statements
  refine ⟨fun _ _ c _ _ _ s hs => nearest_ifThen hs,
    fun _ _ c _ _ _ s hs _ _ t ht => nearest_ifThenElse hs ht,
    fun _ _ c _ _ _ s hs => nearest_whileDo hs, fun h _ s hs => nearest_withBody h hs, ?_⟩
  -- closed statements
  refine ⟨fun s hs => hs, fun ss hss => ⟨rfl, nearest_compound hss⟩,
    fun _ _ c _ _ _ s hs _ _ t ht => ⟨ht.closed, nearest_ifThenElse hs ht.nearest⟩,
    fun _ _ c _ _ _ s hs => ⟨hs.closed, nearest_whileDo hs.nearest⟩,
    fun h _ s hs => ⟨hs.closed, nearest_withBody h hs.nearest⟩, fun s hs => hs,
    ⟨rfl, nearest_compound (List.forall_mem_nil _)⟩, ?_⟩
  simp only [implies_true, true_and]
  exact ⟨fun a _ _ _ e _ => closed_assign a e, fun x _ ps _ => closed_call x ps, fun x _ => closed_call x [],
    List.forall_mem_nil _⟩

theorem rules_nearest : ∀ r ∈ Grammar.rules, r.KeepsNearest := by
  have hother : ∀ r ∈ Grammar.variableRules ++ Grammar.accessRules ++ Grammar.exprRules
      ++ Grammar.operatorRules, r.lhs.hasStatements = false := by decide
  intro r hr
  rw [Grammar.rules, List.mem_toArray] at hr
  simp only [List.append_assoc, List.mem_append] at hr hother
  rcases hr with hr | hr | hr | hr | hr
  · exact programRules_nearest r hr
  · exact functionRules_nearest r hr
  · exact keeps_of_all (Symbol.nearest_of_not_hasStatements (hother r (.inl hr))) _ _
  · exact statementRules_nearest r hr
  · exact keeps_of_all (Symbol.nearest_of_not_hasStatements (hother r (.inr hr))) _ _

theorem automaton_kept : Grammar.automaton.Kept (fun _ => True) Symbol.Nearest where
  token t _ := by cases t <;> trivial
  mark _ := trivial
  rules := rules_nearest

/-- **An else belongs to the nearest if.**  In the tree of a source text, whether errors were repaired in it or
not, no statement before an `else` is open. -/
theorem else_nearest {source : String} {p : Program} (h : (report source).tree = some p) :
    ∀ c s t, p.block.Part (.ifThenElse c s t) → s.isOpen = false := by
  have hparse : (Grammar.parse (lexemes source)).result.toOption = some p := h
  cases hresult : (Grammar.parse (lexemes source)).result with
  | error e =>
    rw [hresult] at hparse
    cases hparse
  | ok q =>
    rw [hresult] at hparse
    cases hparse
    exact parse_keeps automaton_kept hresult

/-- An `if` in an `if` in a loop in a function, each with an `else`, and a statement that is repaired. -/
def elseSource : String :=
  "program p; function f: integer; begin while a do if b then if c then f else g else h end; begin x := end."

/-- The `if` with `else` in a loop in the only function of a program. -/
def Program.loopElse? : Program → Option (Expr × Stmt × Stmt)
  | ⟨_, _, .mk [.definition _ (.mk _ _ [.whileDo _ (.ifThenElse c s t)])] _ _⟩ => some (c, s, t)
  | _ => none

theorem Program.part_of_loopElse? {p : Program} {c : Expr} {s t : Stmt} (h : p.loopElse? = some (c, s, t)) :
    p.block.Part (.ifThenElse c s t) := by
  unfold loopElse? at h
  split at h
  · cases h
    refine .function (List.mem_singleton.mpr rfl) (.definition ?_)
    exact .statement (List.mem_singleton.mpr rfl) (.whileDo .self)
  · cases h

theorem else_nearest_elseSource : ∃ p c s t, (report elseSource).tree = some p ∧
    (report elseSource).errorCount = 1 ∧ p.block.Part (.ifThenElse c s t) ∧ s.isOpen = false := by
  have hreport : ((report elseSource).tree.bind Program.loopElse?).isSome = true ∧
      (report elseSource).errorCount = 1 := by decide +kernel
  obtain ⟨hfound, hcount⟩ := hreport
  obtain ⟨⟨c, s, t⟩, hfound⟩ := Option.isSome_iff_exists.mp hfound
  obtain ⟨p, htree, hp⟩ := Option.bind_eq_some_iff.mp hfound
  have hpart := Program.part_of_loopElse? hp
  exact ⟨p, c, s, t, htree, hcount, hpart, else_nearest htree c s t hpart⟩

end PascalStack
