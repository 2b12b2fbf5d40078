import PascalStack.Proofs.Grammar.Complete

/-!
# How many reductions come before a shift

The automaton gives up after a number of reductions that depends on the height of the stack.  Here it
is shown that it never has to.

* `Symbol.rank`, `potential`   what every reduction makes smaller;
* `Automaton.Linked`    the states on a stack are those that its symbols lead to;
* `Automaton.Graded`    a condition on the tables: which symbols lead to states with empty rules;
* `Automaton.Graded.potential_lt`   a reduction lowers the potential;
* `Automaton.Graded.settle_reduce`  a reduction does not change where the automaton settles.
-/

namespace PascalStack

/-- A phrase ranks below every symbol it may consist of alone, and more than 64 below every symbol
after which it may be empty. -/
def Symbol.rank : Symbol → Nat
  | .terminal _ => 200
  | .error => 200
  | .nonterminal n =>
    match n with
    | .functionPart | .forHead => 100
    | .identifier => 60
    | .identifierList | .argumentList | .memberList => 50
    | .primary | .functionList | .typeDenoter | .variableList | .parameterSection => 57
    | .power | .parameterSections => 56
    | .factor => 55
    | .term => 54
    | .simpleExpr => 53
    | .expr => 52
    | .exprList | .argument | .member => 51
    | .openStatement | .closedStatement => 30
    | .statement => 29
    | .item => 28
    | .sequence => 27
    | .variablePart => 0
    | _ => 58

theorem Symbol.rank_le (X : Symbol) : X.rank ≤ 200 := by
  cases X with
  | terminal _ => exact Nat.le_refl _
  | error => exact Nat.le_refl _
  | nonterminal n => cases n <;> decide

/-- The height of a stack counts 64 times as much as the rank of its top. -/
def potential : List Frame → Nat
  | [] => 0
  | f :: rest => 64 * (rest.length + 1) + f.symbol.rank

theorem potential_lt_budget (stack : List Frame) :
    potential stack < Automaton.budget stack.length := by
  cases stack with
  | nil => decide
  | cons f rest =>
    have h := f.symbol.rank_le
    show 64 * (rest.length + 1) + f.symbol.rank < 64 * (rest.length + 1 + 4)
    omega

theorem topState_cons (f : Frame) (rest : List Frame) : topState (f :: rest) = f.state := rfl

namespace Automaton

/-- Each state on the stack is the one after its symbol in the state below. -/
def Linked (A : Automaton) : List Frame → Prop
  | [] => True
  | f :: rest => A.after? (topState rest) f.symbol = some f.state ∧ A.Linked rest

/-- No rule keeps a stack as high as it was, or makes it higher, without lowering the rank enough. -/
structure Graded (A : Automaton) : Prop where
  /-- a rule with symbols on its right -/
  some_symbols : ∀ (rule : Nat) (r : Rule) (Xs : List Symbol) (X : Symbol), A.rules[rule]? = some r → r.rhs = Xs ++ [X] →
    (Symbol.nonterminal r.lhs).rank < X.rank + 64 * Xs.length
  /-- a rule without any, in a state after the symbol `X` -/
  no_symbols : ∀ (p : Nat) (X : Symbol) (q : Nat) (t : Option Terminal) (rule : Nat) (r : Rule),
    A.after? p X = some q → A.move q t = .reduce rule → A.rules[rule]? = some r → r.rhs = [] →
    (Symbol.nonterminal r.lhs).rank + 64 < X.rank
  /-- nothing is reduced on an empty stack -/
  start : ∀ t rule, A.move 0 t ≠ .reduce rule

section
variable {A : Automaton} {c c₁ : Config} {rule : Nat} {t : Option Terminal}

/-- What a reduction does to a configuration. -/
theorem reduce_eq_some :
    A.reduce rule c = some c₁ ↔
      ∃ r v state, A.rules[rule]? = some r ∧
        feed r.rhs r.action (c.stack.take r.rhs.length).reverse = some v ∧
        A.goto? (topState (c.stack.drop r.rhs.length)) r.lhs = some state ∧
        c₁ = ⟨⟨state, .nonterminal r.lhs, v⟩ :: c.stack.drop r.rhs.length,
          c.recovered ++ (c.stack.take r.rhs.length).reverse.filterMap Frame.recovery?⟩ := by
  constructor
  · intro h
    obtain ⟨r, hr, h⟩ := Option.bind_eq_some_iff.mp h
    obtain ⟨v, hv, h⟩ := Option.bind_eq_some_iff.mp h
    obtain ⟨state, hs, h⟩ := Option.map_eq_some_iff.mp h
    exact ⟨r, v, state, hr, hv, hs, h.symm⟩
  · rintro ⟨r, v, state, hr, hv, hs, rfl⟩
    simp only [reduce, hr, Option.bind_some, hv, hs, Option.map_some]

theorem Linked.drop {stack : List Frame} (h : A.Linked stack) (n : Nat) :
    A.Linked (stack.drop n) := by
  induction n generalizing stack with
  | zero => exact h
  | succ n ih =>
    cases stack with
    | nil => exact h
    | cons f rest => exact ih h.2

theorem Linked.reduce (h : A.Linked c.stack) (hr : A.reduce rule c = some c₁) :
    A.Linked c₁.stack := by
  obtain ⟨r, v, state, _, _, hs, rfl⟩ := reduce_eq_some.mp hr
  exact ⟨hs, h.drop _⟩

/-- A reduction lowers the potential. -/
theorem Graded.potential_lt (hA : A.Graded) (h : A.Linked c.stack)
    (hm : A.move (topState c.stack) t = .reduce rule) (hr : A.reduce rule c = some c₁) :
    potential c₁.stack < potential c.stack := by
  obtain ⟨r, v, state, hrule, hv, _, rfl⟩ := reduce_eq_some.mp hr
  have hlen := congrArg List.length (feed_symbols hv)
  rw [List.length_map, List.length_reverse, List.length_take] at hlen
  show 64 * ((c.stack.drop r.rhs.length).length + 1) + (Symbol.nonterminal r.lhs).rank < _
  rw [List.length_drop]
  cases hstack : c.stack with
  | nil => rw [hstack] at hm; exact absurd hm (hA.start t rule)
  | cons f rest =>
    rw [hstack] at hlen hm h hv
    rw [potential, List.length_cons]
    rw [List.length_cons] at hlen
    rcases List.eq_nil_or_concat r.rhs with hnil | ⟨Xs, X, hX⟩
    · have hk := hA.no_symbols _ _ _ t rule r h.1 hm hrule hnil
      rw [hnil, List.length_nil]
      omega
    · rw [List.concat_eq_append] at hX
      have hk := hA.some_symbols rule r Xs X hrule hX
      have hlast : f.symbol = X := by
        have hsym := feed_symbols hv
        have hn : r.rhs.length = Xs.length + 1 := by rw [hX]; simp
        rw [hn, List.take_succ_cons, List.reverse_cons, List.map_append, hX] at hsym
        exact List.singleton_inj.mp (List.append_inj_right' hsym rfl)
      rw [hX, List.length_append, List.length_singleton] at hlen ⊢
      rw [hlast]
      omega

/-- With enough steps allowed, the number of steps does not matter. -/
theorem Graded.settleUpTo_eq (hA : A.Graded) (n m : Nat) (h : A.Linked c.stack)
    (hn : potential c.stack < n) (hm : potential c.stack < m) :
    A.settleUpTo t n c = A.settleUpTo t m c := by
  induction n generalizing c m with
  | zero => omega
  | succ n ih =>
    cases m with
    | zero => omega
    | succ m =>
      simp only [settleUpTo]
      split
      · rfl
      · rfl
      · rfl
      · rename_i rule hmove
        split
        · rename_i next hnext
          have hlt := hA.potential_lt h hmove hnext
          exact ih m (h.reduce hnext) (by omega) (by omega)
        · rfl

/-- The automaton settles in the same place before and after a reduction. -/
theorem Graded.settle_reduce (hA : A.Graded) (h : A.Linked c.stack)
    (hm : A.move (topState c.stack) t = .reduce rule) (hr : A.reduce rule c = some c₁) :
    A.settle t c = A.settle t c₁ := by
  have hlt := hA.potential_lt h hm hr
  have hb := potential_lt_budget c.stack
  unfold settle
  obtain ⟨n, hn⟩ : ∃ n, budget c.stack.length = n + 1 := ⟨budget c.stack.length - 1, by omega⟩
  rw [hn]
  simp only [settleUpTo, hm, hr]
  exact hA.settleUpTo_eq n _ (h.reduce hr) (by omega) (potential_lt_budget _)

end

end Automaton

/-! ## checking the tables -/

/-- The symbols that a row goes on with, and the states after them. -/
def Row.edges (row : Row) : List (Symbol × Nat) :=
  row.shifts.map (fun x => (.terminal x.1, x.2)) ++
    (row.gotos.map (fun x => (.nonterminal x.1, x.2)) ++ row.repair.toList.map fun q => (.error, q))

theorem Row.shift_of_move {row : Row} {t : Terminal} {q : Nat} (h : row.move (some t) = .shift q) :
    (t, q) ∈ row.shifts := by
  unfold Row.move at h
  split at h
  · rename_i state hs
    cases h
    exact mem_of_lookup hs
  · split at h <;> cases h

theorem Row.reduction_of_move {row : Row} {t : Option Terminal} {rule : Nat}
    (h : row.move t = .reduce rule) :
    ∃ set, (rule, set) ∈ row.reductions ∧ set.testBit (lookaheadBit t) = true := by
  unfold Row.move at h
  split at h
  · cases h
  · split at h
    · rename_i hf
      cases h
      have hbit := List.find?_some hf
      exact ⟨_, List.mem_of_find?_eq_some hf, hbit⟩
    · cases h

namespace Automaton
variable {A : Automaton}

theorem row_of_move {p : Nat} {t : Option Terminal} {m : Move} (h : A.move p t = m)
    (ha : m ≠ .accept) (hf : m ≠ .fail) : ∃ row, A.rows[p]? = some row ∧ row.move t = m := by
  unfold move at h
  split at h
  · exact absurd h.symm ha
  · split at h
    · exact ⟨_, ‹_›, h⟩
    · exact absurd h.symm hf

/-- A state after a symbol is an edge of a row. -/
theorem edge_of_after? {p q : Nat} {X : Symbol} (h : A.after? p X = some q) :
    ∃ row, A.rows[p]? = some row ∧ (X, q) ∈ row.edges := by
  cases X with
  | terminal t =>
    obtain ⟨row, hrow, hm⟩ := row_of_move (after?_terminal h) nofun nofun
    exact ⟨row, hrow, List.mem_append_left _ (List.mem_map.mpr ⟨_, Row.shift_of_move hm, rfl⟩)⟩
  | nonterminal n =>
    obtain ⟨row, hrow, hl⟩ := goto?_eq_some h
    exact ⟨row, hrow, List.mem_append_right _ (List.mem_append_left _
      (List.mem_map.mpr ⟨_, mem_of_lookup hl, rfl⟩))⟩
  | error =>
    obtain ⟨row, hrow, hl⟩ := Option.bind_eq_some_iff.mp h
    exact ⟨row, hrow, List.mem_append_right _ (List.mem_append_right _
      (List.mem_map.mpr ⟨q, Option.mem_toList.mpr hl, rfl⟩))⟩

/-- The condition of `Graded` on a rule with symbols on its right. -/
def gradedRule (r : Rule) : Bool :=
  match r.rhs.reverse with
  | [] => true
  | X :: Xs => (Symbol.nonterminal r.lhs).rank < X.rank + 64 * Xs.length

def gradedEdge (A : Automaton) (X : Symbol) (q : Nat) : Bool :=
  match A.rows[q]? with
  | none => true
  | some row =>
    row.reductions.all fun x =>
      match A.rules[x.1]? with
      | none => true
      | some r => !r.rhs.isEmpty || (Symbol.nonterminal r.lhs).rank + 64 < X.rank

def checkGraded (A : Automaton) : Bool :=
  A.rules.toList.all gradedRule &&
    ((A.rows.toList.all fun row => row.edges.all fun x => A.gradedEdge x.1 x.2) &&
      (A.rows[0]?.map Row.reductions).all List.isEmpty)

theorem graded_of_check (h : A.checkGraded = true) : A.Graded := by
  simp only [checkGraded, Bool.and_eq_true, List.all_eq_true] at h
  obtain ⟨hrules, hrows, hstart⟩ := h
  refine ⟨fun rule r Xs X hr hX => ?_, fun p X q t rule r hq hm hr hnil => ?_, fun t rule hm => ?_⟩
  · have hg := hrules r (Array.mem_toList_iff.mpr (Array.mem_of_getElem? hr))
    simpa [gradedRule, hX] using hg
  · obtain ⟨row, hrow, hmem⟩ := edge_of_after? hq
    have hg := hrows row (Array.mem_toList_iff.mpr (Array.mem_of_getElem? hrow)) _ hmem
    obtain ⟨row', hrow', hm'⟩ := row_of_move hm nofun nofun
    obtain ⟨set, hset, _⟩ := Row.reduction_of_move hm'
    simp only [gradedEdge, hrow', List.all_eq_true] at hg
    have hg := hg _ hset
    simpa [hr, hnil] using hg
  · obtain ⟨row, hrow, hm'⟩ := row_of_move hm nofun nofun
    obtain ⟨set, hset, _⟩ := Row.reduction_of_move hm'
    simp only [hrow, Option.map_some, Option.all_some, List.isEmpty_iff] at hstart
    rw [hstart] at hset
    cases hset

end Automaton

set_option maxRecDepth 10000 in
theorem Grammar.automaton_graded : Grammar.automaton.Graded :=
  Automaton.graded_of_check (by decide +kernel)

end PascalStack
