import PascalStack.Grammar.Table
import PascalStack.Proofs.Grammar.Run

/-!
# Every derivation is found by a run

A condition on the tables of an automaton, one for each state and each rule, under which the automaton
finds every derivation of its rules.

* `Automaton.after?`, `Automaton.path?`   the states after a symbol and after several;
* `Automaton.Complete`       wherever a phrase may stand, the right side of each of its rules leads to
                             a state that reduces by that rule on everything that may follow the phrase;
* `Automaton.Complete.run`   derivations are found;
* `Grammar.automaton_complete`   the automaton of the language meets the condition.

What may follow a phrase is read off the automaton itself: every lookahead on which the state after the
phrase has a move.  So no sets of first or following tokens are needed.
-/

namespace PascalStack

namespace Automaton

def after? (A : Automaton) (state : Nat) : Symbol → Option Nat
  | .terminal t =>
    match A.move state (some t) with
    | .shift next => some next
    | _ => none
  | .nonterminal n => A.goto? state n
  | .error => A.repair? state

def path? (A : Automaton) (state : Nat) : List Symbol → Option Nat
  | [] => some state
  | X :: Xs => (A.after? state X).bind fun next => A.path? next Xs

/-- Where the phrase of a rule may stand in a state `p`, with the state `q` after it, its right side
leads to a state that reduces by the rule on every lookahead on which `q` has a move. -/
def Complete (A : Automaton) : Prop :=
  ∀ p q rule r, A.rules[rule]? = some r → A.goto? p r.lhs = some q → .error ∉ r.rhs →
    ∃ last, A.path? p r.rhs = some last ∧
      ∀ t, A.move q t ≠ .fail → A.move last t = .reduce rule

theorem after?_terminal {A : Automaton} {p q : Nat} {t : Terminal}
    (h : A.after? p (.terminal t) = some q) : A.move p (some t) = .shift q := by
  simp only [after?] at h
  split at h
  · rename_i hm
    cases h
    exact hm
  · cases h

section
variable {A : Automaton}

/-- The run of a derivation of a symbol, from any stack on which the symbol may stand.  The lookahead
after it must be one that the state after the symbol can go on with. -/
def Finds (A : Automaton) (d : Derivation) (X : Symbol) (w : List Token) (x : X.Value) : Prop :=
  ∀ st rest q, A.after? (topState (frames st)) X = some q → A.move q (ahead rest) ≠ .fail →
    Run A st (w ++ rest) (⟨⟨q, X, x⟩, d⟩ :: st) rest

def FindsAll (A : Automaton) (ds : List Derivation) (Xs : List Symbol) (w : List Token)
    {R : Type} (f : Action Xs R) (a : R) : Prop :=
  ∀ st rest q, A.path? (topState (frames st)) Xs = some q → A.move q (ahead rest) ≠ .fail →
    ∃ cs : List Cell, cs.map Cell.tree = ds ∧ feed Xs f (frames cs) = some a ∧
      topState (frames (cs.reverse ++ st)) = q ∧
      Run A st (w ++ rest) (cs.reverse ++ st) rest

theorem finds_leaf (t : Token) : A.Finds (.leaf t) (.terminal t.terminal) [t] t.value := by
  intro st rest q hq _
  exact .single (advance_shift (after?_terminal hq))

theorem findsAll_nil {R : Type} (a : R) : A.FindsAll [] [] [] (R := R) a a := by
  intro st rest q hq _
  exact ⟨[], rfl, rfl, Option.some.inj hq, .refl _ _⟩

/-- Where several symbols may stand, their first token is a lookahead with a move. -/
theorem FindsAll.live {R : Type} {ds : List Derivation} {Xs : List Symbol} {w : List Token}
    {f : Action Xs R} {a : R} (h : A.FindsAll ds Xs w f a) (st : List Cell) {rest : List Token}
    {q : Nat} (hq : A.path? (topState (frames st)) Xs = some q)
    (hrest : A.move q (ahead rest) ≠ .fail) :
    A.move (topState (frames st)) (ahead (w ++ rest)) ≠ .fail := by
  obtain ⟨cs, _, _, htop, hrun⟩ := h st rest q hq hrest
  rcases hrun.moves with ⟨e, ew⟩ | h
  · rwa [← ew, ← e, htop]
  · exact h

/-- The symbols after the first one are run first, from a stack that already has it: that run tells
which lookahead the first symbol is followed by. -/
theorem findsAll_cons {R : Type} {d : Derivation} {ds : List Derivation} {X : Symbol}
    {Xs : List Symbol} {u w : List Token} {x : X.Value} {f : X.Value → Action Xs R} {a : R}
    (hd : A.Finds d X u x) (hds : A.FindsAll ds Xs w (f x) a) :
    A.FindsAll (d :: ds) (X :: Xs) (u ++ w) (R := R) f a := by
  intro st rest q hq hrest
  obtain ⟨p, hp, hq⟩ := Option.bind_eq_some_iff.mp hq
  obtain ⟨cs, htree, hfeed, htop, hrun⟩ := hds (⟨⟨p, X, x⟩, d⟩ :: st) rest q hq hrest
  have hfirst := hd st (w ++ rest) p hp
    (hds.live (⟨⟨p, X, x⟩, d⟩ :: st) hq hrest)
  refine ⟨⟨⟨p, X, x⟩, d⟩ :: cs, ?_, ?_, ?_, ?_⟩
  · rw [List.map_cons, htree]
  · rw [frames_cons, feed_cons, hfeed]
  · rw [List.reverse_cons, List.append_assoc]
    exact htop
  · rw [List.reverse_cons, List.append_assoc, List.append_assoc]
    exact hfirst.trans hrun

/-- No derivation has an error mark at its root. -/
theorem derivesAll_error {rules : Array Rule} {R : Type} {ds : List Derivation} {Xs : List Symbol}
    {w : List Token} {f : Action Xs R} {a : R} (h : DerivesAll rules ds Xs w f a) :
    Symbol.error ∉ Xs := by
  induction Xs generalizing ds w with
  | nil => exact List.not_mem_nil
  | cons X Xs ih =>
    cases h with
    | cons hd hds =>
      intro hmem
      rcases List.mem_cons.mp hmem with rfl | hmem
      · cases hd
      · exact ih hds hmem

/-- The reduction of the cells of a right side. -/
theorem run_reduce {rule : Nat} {r : Rule} (st cs : List Cell) {rest : List Token}
    {v : r.lhs.Value} {q : Nat} (hr : A.rules[rule]? = some r)
    (hq : A.goto? (topState (frames st)) r.lhs = some q)
    (hfeed : feed r.rhs r.action (frames cs) = some v)
    (hmove : A.move (topState (frames (cs.reverse ++ st))) (ahead rest) = .reduce rule) :
    Run A (cs.reverse ++ st) rest
      (⟨⟨q, .nonterminal r.lhs, v⟩, .node rule (cs.map Cell.tree)⟩ :: st) rest := by
  have hlen : cs.reverse.length = r.rhs.length := by
    have h := congrArg List.length (feed_symbols hfeed)
    simp only [frames, List.length_map] at h
    rw [List.length_reverse, h]
  refine .single (advance_reduce hmove (reduceCells_eq_some.mpr ⟨r, v, q, hr, ?_, ?_, ?_⟩))
  · rw [← hlen, List.take_left, List.reverse_reverse]
    exact hfeed
  · rw [← hlen, List.drop_left]
    exact hq
  · rw [← hlen, List.take_left, List.drop_left, List.reverse_reverse]

theorem Complete.finds_node (hA : A.Complete) {rule : Nat} {r : Rule} {ds : List Derivation}
    {w : List Token} {v : r.lhs.Value} (hr : A.rules[rule]? = some r) (he : .error ∉ r.rhs)
    (hds : A.FindsAll ds r.rhs w r.action v) :
    A.Finds (.node rule ds) (.nonterminal r.lhs) w v := by
  intro st rest q hq hrest
  obtain ⟨last, hpath, hlast⟩ := hA _ q rule r hr hq he
  have hred := hlast _ hrest
  obtain ⟨cs, htree, hfeed, htop, hrun⟩ := hds st rest last hpath (by rw [hred]; exact nofun)
  rw [← htop] at hred
  rw [← htree]
  exact hrun.trans (run_reduce st cs hr hq hfeed hred)

/-- **Derivations are found by runs.** -/
theorem Complete.finds (hA : A.Complete) {d : Derivation} {X : Symbol} {w : List Token}
    {x : X.Value} (h : Derives A.rules d X w x) : A.Finds d X w x := by
  refine @Derives.rec A.rules (fun d X w x _ => A.Finds d X w x)
    (fun ds Xs w _ f a _ => A.FindsAll ds Xs w f a) ?_ ?_ ?_ ?_ d X w x h
  · intro t
    exact finds_leaf t
  · intro rule r ds w v hr hds ih
    exact hA.finds_node hr (derivesAll_error hds) ih
  · intro R a
    exact findsAll_nil a
  · intro R d ds X Xs u w x f a _ _ ihd ihds
    exact findsAll_cons ihd ihds

theorem Complete.findsAll (hA : A.Complete) {R : Type} {ds : List Derivation} {Xs : List Symbol}
    {w : List Token} {f : Action Xs R} {a : R} (h : DerivesAll A.rules ds Xs w f a) :
    A.FindsAll ds Xs w f a := by
  induction Xs generalizing ds w with
  | nil =>
    cases h
    exact findsAll_nil _
  | cons X Xs ih =>
    cases h with
    | cons hd hds => exact findsAll_cons (hA.finds hd) (ih hds)

end

end Automaton

/-! ## checking the tables -/

/-- The set of lookaheads on which a row has a move. -/
def Row.live (row : Row) : Nat :=
  row.shifts.foldr (fun x n => 1 <<< lookaheadBit (some x.1) ||| n)
    (row.reductions.foldr (fun x n => x.2 ||| n) 0)

/-- Whether a row reduces by a rule on all lookaheads of a set. -/
def Row.reducesOn (row : Row) (rule set : Nat) : Bool :=
  (row.shifts.all fun x => !set.testBit (lookaheadBit (some x.1))) &&
    match row.reductions.find? fun x => x.2 &&& set != 0 with
    | some (i, s) => i = rule && s &&& set = set
    | none => set = 0

/-- A bit of a union of sets. -/
theorem testBit_union {α : Type} (f : α → Nat) (l : List α) (b i : Nat) :
    (l.foldr (fun x n => f x ||| n) b).testBit i
      = (l.any (fun x => (f x).testBit i) || b.testBit i) := by
  induction l with
  | nil => rfl
  | cons x l ih => rw [List.foldr_cons, Nat.testBit_or, ih, List.any_cons, Bool.or_assoc]

theorem mem_of_lookup {α β : Type} [BEq α] [LawfulBEq α] {l : List (α × β)} {a : α} {b : β}
    (h : l.lookup a = some b) : (a, b) ∈ l := by
  obtain ⟨l₁, l₂, e, _⟩ := List.lookup_eq_some_iff.mp h
  rw [e]
  exact List.mem_append_right _ (List.mem_cons_self ..)

theorem Row.live_of_move {row : Row} {t : Option Terminal} (h : row.move t ≠ .fail) :
    row.live.testBit (lookaheadBit t) = true := by
  have e : row.live.testBit (lookaheadBit t)
      = (row.shifts.any (fun x => (1 <<< lookaheadBit (some x.1)).testBit (lookaheadBit t))
        || (row.reductions.any (fun x => x.2.testBit (lookaheadBit t)) || false)) := by
    unfold Row.live
    rw [testBit_union (fun x : Terminal × Nat => 1 <<< lookaheadBit (some x.1)),
      testBit_union (fun x : Nat × Nat => x.2), Nat.zero_testBit]
  rw [e, Bool.or_eq_true, Bool.or_false]
  unfold Row.move at h
  split at h
  · rename_i state hs
    obtain ⟨x, rfl, hx⟩ := Option.bind_eq_some_iff.mp hs
    refine .inl (List.any_eq_true.mpr ⟨_, mem_of_lookup hx, ?_⟩)
    simp [Nat.testBit_shiftLeft]
  · split at h
    · rename_i rule set hf
      have hbit := List.find?_some hf
      exact .inr (List.any_eq_true.mpr ⟨_, List.mem_of_find?_eq_some hf, hbit⟩)
    · exact absurd rfl h

/-- The reduction that a row makes on a set is the first one that shares a lookahead with it. -/
theorem find?_of_subset {l : List (Nat × Nat)} {set i j s : Nat}
    (h : l.find? (fun x => x.2 &&& set != 0) = some (j, s)) (hs : s &&& set = set)
    (hi : set.testBit i = true) : l.find? (fun x => x.2.testBit i) = some (j, s) := by
  have hsi : s.testBit i = true := by
    have h' := congrArg (fun n => n.testBit i) hs
    simp only [Nat.testBit_and, hi, Bool.and_true] at h'
    exact h'
  induction l with
  | nil => cases h
  | cons x l ih =>
    rw [List.find?_cons] at h ⊢
    cases hx : x.2 &&& set != 0 with
    | true =>
      rw [hx] at h
      cases h
      rw [hsi]
    | false =>
      rw [hx] at h
      have h0 : x.2 &&& set = 0 := by simpa using hx
      have hxi : x.2.testBit i = false := by
        have h' := congrArg (fun n => n.testBit i) h0
        simpa only [Nat.testBit_and, hi, Bool.and_true, Nat.zero_testBit] using h'
      rw [hxi]
      exact ih h

theorem Row.move_of_reducesOn {row : Row} {rule set : Nat} {t : Option Terminal}
    (h : row.reducesOn rule set = true) (ht : set.testBit (lookaheadBit t) = true) :
    row.move t = .reduce rule := by
  simp only [Row.reducesOn, Bool.and_eq_true, List.all_eq_true, Bool.not_eq_true'] at h
  obtain ⟨hshift, hred⟩ := h
  have hnone : (t.bind fun x => row.shifts.lookup x) = none := by
    refine Option.eq_none_iff_forall_ne_some.mpr fun state hs => ?_
    obtain ⟨x, rfl, hx⟩ := Option.bind_eq_some_iff.mp hs
    have := hshift _ (mem_of_lookup hx)
    rw [ht] at this
    cases this
  split at hred
  · rename_i i s hf
    simp only [Bool.and_eq_true, decide_eq_true_eq] at hred
    have hfind := find?_of_subset hf hred.2 ht
    simp only [Row.move, hnone, hfind, hred.1]
  · rw [decide_eq_true_eq] at hred
    rw [hred, Nat.zero_testBit] at ht
    cases ht

namespace Automaton

def live (A : Automaton) (state : Nat) : Nat :=
  (if state = A.accepting then 1 <<< lookaheadBit none else 0)
    ||| (A.rows[state]?.map Row.live).getD 0

/-- The condition of `Complete` for one row and one rule. -/
def completeAt (A : Automaton) (p : Nat) (row : Row) (rule : Nat) (r : Rule) : Bool :=
  match row.gotos.lookup r.lhs with
  | none => true
  | some q =>
    r.rhs.contains .error ||
      match A.path? p r.rhs with
      | none => false
      | some last =>
        last ≠ A.accepting &&
          match A.rows[last]? with
          | none => false
          | some row => row.reducesOn rule (A.live q)

def checkComplete (A : Automaton) : Bool :=
  A.rows.toList.zipIdx.all fun x =>
    A.rules.toList.zipIdx.all fun y => A.completeAt x.2 x.1 y.2 y.1

theorem live_of_move {A : Automaton} {state : Nat} {t : Option Terminal}
    (h : A.move state t ≠ .fail) : (A.live state).testBit (lookaheadBit t) = true := by
  unfold move at h
  rw [live, Nat.testBit_or, Bool.or_eq_true]
  split at h
  · rename_i hacc
    rw [if_pos hacc.1, hacc.2]
    exact .inl (by simp [Nat.testBit_shiftLeft])
  · split at h
    · rename_i row hrow
      rw [hrow]
      exact .inr (Row.live_of_move h)
    · exact absurd rfl h

theorem goto?_eq_some {A : Automaton} {p q : Nat} {n : Nonterminal} (h : A.goto? p n = some q) :
    ∃ row, A.rows[p]? = some row ∧ row.gotos.lookup n = some q :=
  Option.bind_eq_some_iff.mp h

theorem mem_zipIdx_of_getElem? {α : Type} {a : Array α} {i : Nat} {x : α} (h : a[i]? = some x) :
    (x, i) ∈ a.toList.zipIdx := by
  rw [List.mem_zipIdx_iff_getElem?, Array.getElem?_toList]
  exact h

theorem complete_of_check {A : Automaton} (h : A.checkComplete = true) : A.Complete := by
  intro p q rule r hr hq he
  obtain ⟨row, hrow, hgoto⟩ := goto?_eq_some hq
  have hat := List.all_eq_true.mp h _ (mem_zipIdx_of_getElem? hrow)
  have hat := List.all_eq_true.mp hat _ (mem_zipIdx_of_getElem? hr)
  have hcon : r.rhs.contains .error = false := by
    rw [List.contains_eq_mem, decide_eq_false_iff_not]
    exact he
  simp only [completeAt, hgoto, hcon, Bool.false_or] at hat
  split at hat
  · cases hat
  · rename_i last hpath
    rw [Bool.and_eq_true, decide_eq_true_eq] at hat
    obtain ⟨hne, hat⟩ := hat
    refine ⟨last, hpath, fun t ht => ?_⟩
    split at hat
    · cases hat
    · rename_i row' hrow'
      have hmove := Row.move_of_reducesOn hat (live_of_move ht)
      rw [move, if_neg (fun hacc => hne hacc.1), hrow']
      exact hmove

end Automaton

set_option maxRecDepth 10000 in
/-- The automaton of the language finds every derivation. -/
theorem Grammar.automaton_complete : Grammar.automaton.Complete :=
  Automaton.complete_of_check (by decide +kernel)

end PascalStack
