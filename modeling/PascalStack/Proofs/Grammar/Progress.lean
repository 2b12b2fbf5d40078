import Mathlib.Algebra.Ring.Nat
import PascalStack.Proofs.Grammar.Shelter

/-!
# Reductions always go through

A condition on the tables of an automaton under which a reduction that a state asks for finds the right side
of its rule on the stack.  Then the stacks of states that are tried out in a repair behave as stacks of frames
do, and the number of moves allowed for either is always enough.

* `Automaton.Viable`         the condition;
* `Automaton.Viable.reduce`  no reduction fails;
* `Automaton.Leads`          a stack of states reaches a shift of the lookahead, or acceptance, in any number of
                             moves;
* `Automaton.Viable.leads_iff`   the budget for trying out a stack is enough;
* `Automaton.Leads.settle`   a stack that leads to a shift settles there.
-/

namespace PascalStack

namespace Automaton

/-- Where a state reduces by a rule, the right side of the rule lies on the stack, and the state below it
goes on after the left side.  After an error mark nothing is done but to reduce it. -/
structure Viable (A : Automaton) : Prop where
  pop : ∀ (stack : List Frame) (t : Option Terminal) (rule : Nat), A.Linked stack →
    A.move (topState stack) t = .reduce rule → ∃ r q, A.rules[rule]? = some r ∧
      (stack.take r.rhs.length).reverse.map Frame.symbol = r.rhs ∧
      A.goto? (topState (stack.drop r.rhs.length)) r.lhs = some q
  mark : ∀ (p e : Nat) (t : Option Terminal), A.repair? p = some e → A.move e t = .fail ∨
    ∃ rule r, A.move e t = .reduce rule ∧ A.rules[rule]? = some r ∧ r.rhs = [.error]

end Automaton

/-- Frames of the right symbols have the values that an action takes. -/
theorem feed_of_symbols {R : Type} {Xs : List Symbol} (f : Action Xs R) {fs : List Frame}
    (h : fs.map Frame.symbol = Xs) : ∃ a, feed Xs f fs = some a := by
  induction Xs generalizing fs with
  | nil =>
    cases List.map_eq_nil_iff.mp h
    exact ⟨f, rfl⟩
  | cons X Xs ih =>
    obtain ⟨⟨state, Y, v⟩, rest, rfl, rfl, hrest⟩ := List.map_eq_cons_iff.mp h
    obtain ⟨a, ha⟩ := ih (f v) hrest
    exact ⟨a, (feed_cons f state v rest).trans ha⟩

namespace Automaton

/-- A stack of states, top first, reaches a shift of the lookahead or acceptance. -/
inductive Leads (A : Automaton) (t : Option Terminal) : List Nat → Prop
  | shift {states : List Nat} {q : Nat} (h : A.move (states.headD 0) t = .shift q) :
      Leads A t states
  | accept {states : List Nat} (h : A.move (states.headD 0) t = .accept) : Leads A t states
  | reduce {states next : List Nat} {rule : Nat} (h : A.move (states.headD 0) t = .reduce rule)
      (hr : A.reduceStates rule states = some next) (hn : Leads A t next) : Leads A t states

section
variable {A : Automaton} {t : Option Terminal} {rule : Nat} {c c₁ : Config}

theorem Leads.not_fail {states : List Nat} (h : A.Leads t states) :
    A.move (states.headD 0) t ≠ .fail := by
  intro hfail
  cases h with
  | shift h => cases hfail.symm.trans h
  | accept h => cases hfail.symm.trans h
  | reduce h _ _ => cases hfail.symm.trans h

/-- A reduction neither opens nor closes the way to a shift. -/
theorem leads_reduce (hm : A.move (topState c.stack) t = .reduce rule)
    (hr : A.reduce rule c = some c₁) :
    A.Leads t (c.stack.map Frame.state) ↔ A.Leads t (c₁.stack.map Frame.state) := by
  have hstates := reduceStates_of_reduce hr
  refine ⟨fun h => ?_, .reduce hm hstates⟩
  cases h with
  | shift h => cases hm.symm.trans h
  | accept h => cases hm.symm.trans h
  | reduce h hs hn =>
    cases hm.symm.trans h
    cases hstates.symm.trans hs
    exact hn

/-- **No reduction fails.** -/
theorem Viable.reduce (hV : A.Viable) (hl : A.Linked c.stack)
    (hm : A.move (topState c.stack) t = .reduce rule) : ∃ c₁, A.reduce rule c = some c₁ := by
  obtain ⟨r, q, hr, hsym, hq⟩ := hV.pop _ t rule hl hm
  obtain ⟨v, hv⟩ := feed_of_symbols r.action hsym
  exact ⟨_, reduce_eq_some.mpr ⟨r, v, q, hr, hv, hq, rfl⟩⟩

/-- With enough moves allowed, a stack is found to lead to a shift iff it does. -/
theorem Viable.leadsUpTo_iff (hV : A.Viable) (hG : A.Graded) (n : Nat) (hl : A.Linked c.stack)
    (hn : potential c.stack < n) :
    A.leadsUpTo t n (c.stack.map Frame.state) = true ↔ A.Leads t (c.stack.map Frame.state) := by
  induction n generalizing c with
  | zero => omega
  | succ n ih =>
    have hhead : A.move ((c.stack.map Frame.state).headD 0) t = A.move (topState c.stack) t := rfl
    cases hm : A.move (topState c.stack) t with
    | shift q =>
      simp only [leadsUpTo, hhead, hm, true_iff]
      exact .shift hm
    | accept =>
      simp only [leadsUpTo, hhead, hm, true_iff]
      exact .accept hm
    | fail =>
      simp only [leadsUpTo, hhead, hm, Bool.false_eq_true, false_iff]
      exact fun h => h.not_fail hm
    | reduce rule =>
      obtain ⟨c₁, hr⟩ := hV.reduce hl hm
      have hlt := hG.potential_lt hl hm hr
      simp only [leadsUpTo, hhead, hm, reduceStates_of_reduce hr]
      exact (ih (hl.reduce hr) (by omega)).trans (leads_reduce hm hr).symm

theorem Viable.leads_iff (hV : A.Viable) (hG : A.Graded) {stack : List Frame} (hl : A.Linked stack) :
    A.leads t (stack.map Frame.state) = true ↔ A.Leads t (stack.map Frame.state) := by
  have hb := potential_lt_budget stack
  rw [leads, List.length_map]
  exact hV.leadsUpTo_iff hG (c := ⟨stack, []⟩) _ hl hb

/-- **The expected terminals are those with which the parse could have gone on.** -/
theorem Viable.mem_expected (hV : A.Viable) (hG : A.Graded) {stack : List Frame}
    (hl : A.Linked stack) {x : Terminal} :
    x ∈ A.expected (stack.map Frame.state) ↔
      x ∈ Terminal.all ∧ A.Leads (some x) (stack.map Frame.state) := by
  rw [expected, List.mem_filter, hV.leads_iff hG hl]

/-- A stack that leads to a shift, or to acceptance, settles there. -/
theorem Leads.settle (hV : A.Viable) (hG : A.Graded) (hl : A.Linked c.stack)
    (h : A.Leads t (c.stack.map Frame.state)) :
    ∃ c₁, A.settle t c = (c₁, .accept) ∨ ∃ q, A.settle t c = (c₁, .shift q) := by
  generalize hs : c.stack.map Frame.state = states at h
  induction h generalizing c with
  | shift h =>
    subst hs
    exact ⟨c, .inr ⟨_, settle_shift h⟩⟩
  | accept h =>
    subst hs
    exact ⟨c, .inl (settle_accept h)⟩
  | reduce h hr hn ih =>
    subst hs
    obtain ⟨c₁, hc₁⟩ := hV.reduce hl h
    cases (reduceStates_of_reduce hc₁).symm.trans hr
    rw [hG.settle_reduce hl h hc₁]
    exact ih (hl.reduce hc₁) rfl

end

end Automaton

/-! ## checking the tables -/

def Symbol.code : Symbol → Nat
  | .terminal t => lookaheadBit (some t)
  | .error => 63
  | .nonterminal n => 64 + n.ctorIdx

def Symbol.ofCode (n : Nat) : Symbol :=
  if n < 29 then .terminal (.keyword (Keyword.ofNat n))
  else if n = 29 then .terminal .identifier
  else if n = 30 then .terminal .integer
  else if n = 31 then .terminal .real
  else if n = 32 then .terminal .string
  else if n < 63 then .terminal (.punct (Punct.ofNat (n - 33)))
  else if n = 63 then .error
  else .nonterminal (Nonterminal.ofNat (n - 64))

theorem Symbol.ofCode_code (X : Symbol) : Symbol.ofCode X.code = X := by
  cases X with
  | error => rfl
  | nonterminal n => cases n <;> rfl
  | terminal t =>
    cases t with
    | keyword k => cases k <;> rfl
    | punct p => cases p <;> rfl
    | identifier => rfl
    | integer => rfl
    | real => rfl
    | string => rfl

theorem Symbol.code_injective {X Y : Symbol} (h : X.code = Y.code) : X = Y := by
  rw [← X.ofCode_code, h, Y.ofCode_code]

/-- Whether all members below `2 ^ k` of a set, counted from `base`, are as `f` says. -/
def allIn (f : Nat → Bool) : (k base set : Nat) → Bool
  | 0, base, set => set % 2 == 0 || f base
  | k + 1, base, set =>
    set == 0 || (allIn f k base (set % 2 ^ 2 ^ k) && allIn f k (base + 2 ^ k) (set >>> 2 ^ k))

theorem of_allIn {f : Nat → Bool} {k base set i : Nat} (h : allIn f k base set = true)
    (hi : set.testBit i = true) (hk : i < 2 ^ k) : f (base + i) = true := by
  induction k generalizing base set i with
  | zero =>
    obtain rfl : i = 0 := by omega
    rw [Nat.testBit_zero, decide_eq_true_eq] at hi
    simpa [allIn, hi] using h
  | succ k ih =>
    rw [allIn, Bool.or_eq_true, beq_iff_eq, Bool.and_eq_true] at h
    rcases h with rfl | ⟨hlow, hhigh⟩
    · rw [Nat.zero_testBit] at hi
      cases hi
    · rw [Nat.pow_succ] at hk
      by_cases hlt : i < 2 ^ k
      · exact ih hlow (by rw [Nat.testBit_mod_two_pow, hi, decide_eq_true hlt]; rfl) hlt
      · have hsum : base + i = base + 2 ^ k + (i - 2 ^ k) := by omega
        rw [hsum]
        refine ih hhigh ?_ (by omega)
        rw [Nat.testBit_shiftRight, Nat.add_sub_cancel' (by omega)]
        exact hi

theorem Row.goto_of_edge {row : Row} {n : Nonterminal} {q : Nat}
    (h : (.nonterminal n, q) ∈ row.edges) : ∃ q, row.gotos.lookup n = some q := by
  simp only [Row.edges, List.mem_append, List.mem_map, Prod.mk.injEq, reduceCtorEq, false_and,
    and_false, exists_false, false_or, or_false, Symbol.nonterminal.injEq] at h
  obtain ⟨x, hx, rfl, _⟩ := h
  refine Option.isSome_iff_exists.mp (Option.isSome_iff_ne_none.mpr fun hnone => ?_)
  have hne := List.lookup_eq_none_iff.mp hnone x hx
  simp at hne

namespace Automaton

def edges (A : Automaton) : List (Nat × Symbol × Nat) :=
  A.rows.toList.zipIdx.flatMap fun x => x.1.edges.map fun e => (x.2, e)

/-- Where an edge leads from `p` to `q`, bit `256 * q + p` is set. -/
def sources (A : Automaton) : Nat :=
  A.edges.foldr (fun e set => 1 <<< (256 * e.2.2 + e.1) ||| set) 0

def before (A : Automaton) (q : Nat) : Nat := A.sources >>> (256 * q) % 2 ^ 256

/-- The codes of the symbols that lead to the states, eight bits each. -/
def entries (A : Automaton) : Nat :=
  A.edges.foldr (fun e n => e.2.1.code <<< (8 * e.2.2) ||| n) 0

/-- The code of the symbol that leads to a state. -/
def entry (A : Automaton) (q : Nat) : Nat := A.entries >>> (8 * q) % 256

/-- Where an edge with the symbol `X` leads from `p`, bit `256 * X.code + p` is set. -/
def exits (A : Automaton) : Nat :=
  A.edges.foldr (fun e set => 1 <<< (256 * e.2.1.code + e.1) ||| set) 0

/-- The states that go on after a symbol, as a set. -/
def leaving (A : Automaton) (X : Symbol) : Nat := A.exits >>> (256 * X.code) % 2 ^ 256

/-- Whether the symbols, top first, lie on every stack with a state of the set on top, and the state below
them goes on after `n`. -/
def popsTo (A : Automaton) (n : Nonterminal) : List Symbol → (set : Nat) → Bool
  | [], set => set &&& A.leaving (.nonterminal n) == set
  | X :: Xs, set =>
    allIn (fun q => q != 0 && A.entry q == X.code && A.popsTo n Xs (A.before q)) 8 0 set

/-- The condition of `Viable` on the row after an error mark. -/
def erases (A : Automaton) (e : Nat) : Bool :=
  e ≠ A.accepting && A.rows[e]?.all fun row => row.shifts.isEmpty &&
    row.reductions.all fun x => (A.rules[x.1]?.map Rule.rhs) = some [.error]

def checkViable (A : Automaton) : Bool :=
  A.rows.size ≤ 256 &&
  (A.edges.all fun e => (A.before e.2.2).testBit e.1 && A.entry e.2.2 == e.2.1.code) &&
  A.rows.toList.zipIdx.all fun x =>
    (x.1.reductions.all fun y =>
      A.rules[y.1]?.any fun r => A.popsTo r.lhs r.rhs.reverse (1 <<< x.2)) &&
    x.1.repair.all A.erases

section
variable {A : Automaton}

theorem mem_edges {p q : Nat} {X : Symbol} :
    (p, X, q) ∈ A.edges ↔ ∃ row, A.rows[p]? = some row ∧ (X, q) ∈ row.edges := by
  simp only [edges, List.mem_flatMap, List.mem_map, List.mem_zipIdx_iff_getElem?,
    Array.getElem?_toList, Prod.exists, Prod.mk.injEq]
  constructor
  · rintro ⟨row, i, hrow, X', q', hmem, rfl, rfl, rfl⟩
    exact ⟨row, hrow, hmem⟩
  · rintro ⟨row, hrow, hmem⟩
    exact ⟨row, p, hrow, X, q, hmem, rfl, rfl, rfl⟩

theorem goto?_of_leaving (hsize : A.rows.size ≤ 256) {n : Nonterminal} {p : Nat} (hp : p < 256)
    (h : (A.leaving (.nonterminal n)).testBit p = true) : ∃ q, A.goto? p n = some q := by
  rw [leaving, Nat.testBit_mod_two_pow, Nat.testBit_shiftRight, Bool.and_eq_true, exits,
    testBit_union (fun e : Nat × Symbol × Nat => 1 <<< (256 * e.2.1.code + e.1)), Nat.zero_testBit,
    Bool.or_false, List.any_eq_true] at h
  obtain ⟨_, ⟨p', X, q⟩, hmem, hbit⟩ := h
  obtain ⟨row, hrow, hedge⟩ := mem_edges.mp hmem
  have hp' : p' < A.rows.size := (Array.getElem?_eq_some_iff.mp hrow).1
  rw [Nat.shiftLeft_eq, Nat.one_mul, Nat.testBit_two_pow, decide_eq_true_eq] at hbit
  dsimp only at hbit
  have hcode : X.code = (Symbol.nonterminal n).code := by omega
  obtain rfl : p' = p := by omega
  rw [Symbol.code_injective hcode] at hedge
  obtain ⟨q, hq⟩ := Row.goto_of_edge hedge
  exact ⟨q, by rw [goto?, hrow, Option.bind_some, hq]⟩

/-- The symbols that the tables promise lie on the stack. -/
theorem pop_of_popsTo (hsize : A.rows.size ≤ 256)
    (hedge : ∀ p X q, A.after? p X = some q →
      p < 256 ∧ (A.before q).testBit p = true ∧ A.entry q = X.code)
    {n : Nonterminal} {Xs : List Symbol} {set : Nat} {stack : List Frame} (hl : A.Linked stack)
    (htop : topState stack < 256) (hset : set.testBit (topState stack) = true)
    (h : A.popsTo n Xs set = true) :
    (stack.take Xs.length).map Frame.symbol = Xs ∧
      ∃ q, A.goto? (topState (stack.drop Xs.length)) n = some q := by
  induction Xs generalizing stack set with
  | nil =>
    rw [popsTo, beq_iff_eq] at h
    rw [← h, Nat.testBit_and, Bool.and_eq_true] at hset
    exact ⟨rfl, goto?_of_leaving hsize htop hset.2⟩
  | cons X Xs ih =>
    have hat := of_allIn h hset htop
    simp only [Nat.zero_add, Bool.and_eq_true, bne_iff_ne, beq_iff_eq] at hat
    obtain ⟨⟨hne, hentry⟩, hbefore⟩ := hat
    cases stack with
    | nil => exact absurd rfl hne
    | cons f rest =>
      obtain ⟨hf, hrest⟩ := hl
      obtain ⟨hlt, hmem, hcode⟩ := hedge _ _ _ hf
      have hX : f.symbol = X := Symbol.code_injective (hcode.symm.trans hentry)
      obtain ⟨hsym, hgoto⟩ := ih hrest hlt hmem hbefore
      exact ⟨by rw [List.length_cons, List.take_succ_cons, List.map_cons, hX, hsym], hgoto⟩

/-- A row that reduces an error mark, and does nothing else. -/
theorem move_of_erases {e : Nat} (h : A.erases e = true) (t : Option Terminal) :
    A.move e t = .fail ∨
      ∃ rule r, A.move e t = .reduce rule ∧ A.rules[rule]? = some r ∧ r.rhs = [.error] := by
  rw [erases, Bool.and_eq_true, decide_eq_true_eq] at h
  obtain ⟨hne, hrow⟩ := h
  rw [move, if_neg fun hacc => hne hacc.1]
  cases he : A.rows[e]? with
  | none => exact .inl rfl
  | some row =>
    rw [he, Option.all_some, Bool.and_eq_true, List.isEmpty_iff, List.all_eq_true] at hrow
    obtain ⟨hshifts, hreductions⟩ := hrow
    cases hm : row.move t with
    | fail => exact .inl hm
    | reduce rule =>
      obtain ⟨set, hset, _⟩ := Row.reduction_of_move hm
      have hrhs := hreductions _ hset
      rw [decide_eq_true_eq] at hrhs
      obtain ⟨r, hr, hrhs⟩ := Option.map_eq_some_iff.mp hrhs
      exact .inr ⟨rule, r, hm, hr, hrhs⟩
    | shift q =>
      have hnone : (t.bind fun x => row.shifts.lookup x) = none := by
        rw [hshifts]
        cases t <;> rfl
      simp only [Row.move, hnone] at hm
      split at hm <;> cases hm
    | accept =>
      simp only [Row.move] at hm
      split at hm
      · cases hm
      · split at hm <;> cases hm

theorem viable_of_check (h : A.checkViable = true) : A.Viable := by
  simp only [checkViable, Bool.and_eq_true, decide_eq_true_eq, List.all_eq_true, beq_iff_eq] at h
  obtain ⟨⟨hsize, hedges⟩, hrows⟩ := h
  have hedge : ∀ p X q, A.after? p X = some q →
      p < 256 ∧ (A.before q).testBit p = true ∧ A.entry q = X.code := by
    intro p X q hq
    obtain ⟨row, hrow, hmem⟩ := edge_of_after? hq
    have hlt : p < A.rows.size := (Array.getElem?_eq_some_iff.mp hrow).1
    exact ⟨by omega, hedges _ (mem_edges.mpr ⟨row, hrow, hmem⟩)⟩
  refine ⟨fun stack t rule hl hm => ?_, fun p e t he => ?_⟩
  · obtain ⟨row, hrow, hm⟩ := row_of_move hm Move.noConfusion Move.noConfusion
    obtain ⟨set, hset, _⟩ := Row.reduction_of_move hm
    have hat := (hrows _ (mem_zipIdx_of_getElem? hrow)).1 _ hset
    obtain ⟨r, hr, hpops⟩ := (Option.any_eq_true _ _).mp hat
    have hlt : topState stack < A.rows.size := (Array.getElem?_eq_some_iff.mp hrow).1
    have hbit : (1 <<< topState stack).testBit (topState stack) = true := by
      rw [Nat.shiftLeft_eq, Nat.one_mul, Nat.testBit_two_pow_self]
    obtain ⟨hsym, q, hq⟩ := pop_of_popsTo hsize hedge hl (by omega) hbit hpops
    rw [List.length_reverse] at hsym hq
    exact ⟨r, q, hr, by rw [List.map_reverse, hsym, List.reverse_reverse], hq⟩
  · obtain ⟨row, hrow, hrepair⟩ := Option.bind_eq_some_iff.mp he
    have hat := (hrows _ (mem_zipIdx_of_getElem? hrow)).2
    rw [hrepair, Option.all_some] at hat
    exact move_of_erases hat t

end

end Automaton

set_option maxRecDepth 10000 in
theorem Grammar.automaton_viable : Grammar.automaton.Viable :=
  Automaton.viable_of_check (by decide +kernel)

end PascalStack
