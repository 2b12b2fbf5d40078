import PascalStack.Proofs.Grammar.Derivation

/-!
# Runs of an automaton without repairs

The moves of an automaton on a stack whose frames are kept together with the derivations they were
built by.  Nothing is repaired here: where no move is possible the run ends.

* `Cell`               a frame and the derivation of its symbol;
* `Automaton.advance`  one move: a shift or a reduction;
* `Automaton.Run`      moves one after the other;
* `Automaton.Run.unique`   a run that cannot go on is the only one from its start;
* `Covers`             the derivations on a stack cover a sequence of tokens;
* `Automaton.Run.derives`  a run that leaves one cell has derived all its tokens.
-/

namespace PascalStack

/-- A frame of the stack with the derivation of its symbol. -/
structure Cell where
  frame : Frame
  tree : Derivation

def frames (st : List Cell) : List Frame := st.map Cell.frame

theorem frames_cons (c : Cell) (st : List Cell) : frames (c :: st) = c.frame :: frames st := rfl

def ahead (w : List Token) : Option Terminal := w.head?.map Token.terminal

theorem ahead_nil : ahead [] = none := rfl
theorem ahead_cons (t : Token) (w : List Token) : ahead (t :: w) = some t.terminal := rfl

def shifted (state : Nat) (t : Token) : Cell := ⟨⟨state, .terminal t.terminal, t.value⟩, .leaf t⟩

namespace Automaton

/-- A reduction that keeps track of derivations. -/
def reduceCells (A : Automaton) (rule : Nat) (st : List Cell) : Option (List Cell) :=
  A.rules[rule]?.bind fun r =>
    let popped := (st.take r.rhs.length).reverse
    let rest := st.drop r.rhs.length
    (feed r.rhs r.action (frames popped)).bind fun value =>
      (A.goto? (topState (frames rest)) r.lhs).map fun state =>
        ⟨⟨state, .nonterminal r.lhs, value⟩, .node rule (popped.map Cell.tree)⟩ :: rest

def advance (A : Automaton) (st : List Cell) (w : List Token) :
    Option (List Cell × List Token) :=
  match A.move (topState (frames st)) (ahead w) with
  | .shift state =>
    match w with
    | t :: rest => some (shifted state t :: st, rest)
    | [] => none
  | .reduce rule => (A.reduceCells rule st).map fun next => (next, w)
  | .accept => none
  | .fail => none

inductive Run (A : Automaton) : List Cell → List Token → List Cell → List Token → Prop
  | refl (st : List Cell) (w : List Token) : Run A st w st w
  | step {st st₁ st₂ : List Cell} {w w₁ w₂ : List Token} :
      A.advance st w = some (st₁, w₁) → Run A st₁ w₁ st₂ w₂ → Run A st w st₂ w₂

section
variable {A : Automaton} {st st₁ st₂ : List Cell} {w w₁ w₂ : List Token}

theorem Run.single (h : A.advance st w = some (st₁, w₁)) : Run A st w st₁ w₁ :=
  .step h (.refl _ _)

theorem Run.trans (h₁ : Run A st w st₁ w₁) (h₂ : Run A st₁ w₁ st₂ w₂) : Run A st w st₂ w₂ := by
  induction h₁ with
  | refl => exact h₂
  | step h _ ih => exact .step h (ih h₂)

/-- Two runs from one start that cannot go on end in the same place. -/
theorem Run.unique (h₁ : Run A st w st₁ w₁) (h₂ : Run A st w st₂ w₂)
    (e₁ : A.advance st₁ w₁ = none) (e₂ : A.advance st₂ w₂ = none) : st₁ = st₂ ∧ w₁ = w₂ := by
  induction h₁ with
  | refl =>
    cases h₂ with
    | refl => exact ⟨rfl, rfl⟩
    | step h _ => rw [e₁] at h; cases h
  | step h _ ih =>
    cases h₂ with
    | refl => rw [e₂] at h; cases h
    | step h' rest =>
      rw [h] at h'
      cases h'
      exact ih rest e₁

/-- A run that is not at its end starts with a move on its lookahead. -/
theorem Run.moves (h : Run A st w st₁ w₁) :
    (st₁ = st ∧ w₁ = w) ∨ A.move (topState (frames st)) (ahead w) ≠ .fail := by
  cases h with
  | refl => exact .inl ⟨rfl, rfl⟩
  | step h _ =>
    refine .inr fun hm => ?_
    simp only [advance, hm] at h
    cases h

theorem advance_shift {state : Nat} {t : Token}
    (h : A.move (topState (frames st)) (some t.terminal) = .shift state) :
    A.advance st (t :: w) = some (shifted state t :: st, w) := by
  simp only [advance, ahead_cons, h]

theorem advance_reduce {rule : Nat} (h : A.move (topState (frames st)) (ahead w) = .reduce rule)
    (hr : A.reduceCells rule st = some st₁) : A.advance st w = some (st₁, w) := by
  simp only [advance, h, hr, Option.map_some]

/-- A move is the shift of a token, or a reduction that reads nothing. -/
theorem advance_cases (h : A.advance st w = some (st₁, w₁)) :
    (∃ t state, w = t :: w₁ ∧ A.move (topState (frames st)) (some t.terminal) = .shift state ∧
      st₁ = shifted state t :: st) ∨
    ∃ rule, w₁ = w ∧ A.move (topState (frames st)) (ahead w) = .reduce rule ∧
      A.reduceCells rule st = some st₁ := by
  unfold advance at h
  split at h
  · rename_i state hmove
    cases w with
    | nil => cases h
    | cons t rest =>
      cases h
      exact .inl ⟨t, state, rfl, hmove, rfl⟩
  · rename_i rule hmove
    obtain ⟨next, hnext, he⟩ := Option.map_eq_some_iff.mp h
    cases he
    exact .inr ⟨rule, rfl, hmove, hnext⟩
  · cases h
  · cases h

theorem Run.length_le (h : Run A st w st₁ w₁) : w₁.length ≤ w.length := by
  induction h with
  | refl => exact Nat.le_refl _
  | step h _ ih =>
    rcases advance_cases h with ⟨_, _, rfl, _⟩ | ⟨_, rfl, _⟩
    · exact Nat.le_succ_of_le ih
    · exact ih

/-- What a reduction does, with the cells of the right side set apart. -/
theorem reduceCells_eq_some {rule : Nat} :
    A.reduceCells rule st = some st₁ ↔
      ∃ r v state, A.rules[rule]? = some r ∧
        feed r.rhs r.action (frames (st.take r.rhs.length).reverse) = some v ∧
        A.goto? (topState (frames (st.drop r.rhs.length))) r.lhs = some state ∧
        st₁ = ⟨⟨state, .nonterminal r.lhs, v⟩,
          .node rule ((st.take r.rhs.length).reverse.map Cell.tree)⟩
            :: st.drop r.rhs.length := by
  constructor
  · intro h
    obtain ⟨r, hr, h⟩ := Option.bind_eq_some_iff.mp h
    obtain ⟨v, hv, h⟩ := Option.bind_eq_some_iff.mp h
    obtain ⟨state, hs, h⟩ := Option.map_eq_some_iff.mp h
    exact ⟨r, v, state, hr, hv, hs, h.symm⟩
  · rintro ⟨r, v, state, hr, hv, hs, rfl⟩
    simp only [reduceCells, hr, Option.bind_some, hv, hs, Option.map_some]

end

end Automaton

/-! ## feeding values to an action -/

theorem feed_cons {R : Type} {X : Symbol} {Xs : List Symbol} (f : X.Value → Action Xs R)
    (state : Nat) (x : X.Value) (fs : List Frame) :
    feed (R := R) (X :: Xs) f (⟨state, X, x⟩ :: fs) = feed Xs (f x) fs := by
  simp only [feed, dite_true]

/-- Values are only taken from frames of the right symbols. -/
theorem feed_symbols {R : Type} {Xs : List Symbol} {f : Action Xs R} {fs : List Frame} {a : R}
    (h : feed Xs f fs = some a) : fs.map Frame.symbol = Xs := by
  induction Xs generalizing fs with
  | nil =>
    cases fs with
    | nil => rfl
    | cons _ _ => cases h
  | cons X Xs ih =>
    cases fs with
    | nil => cases h
    | cons g fs =>
      by_cases hg : g.symbol = X
      · simp only [feed, dif_pos hg] at h
        rw [List.map_cons, ih h, hg]
      · simp only [feed, dif_neg hg] at h
        cases h

/-! ## soundness -/

/-- The derivations of the cells of a stack, from the bottom to the top, cover the tokens `w`. -/
inductive Covers (rules : Array Rule) : List Cell → List Token → Prop
  | nil : Covers rules [] []
  | cons {c : Cell} {st : List Cell} {w u : List Token} :
      Covers rules st w → Derives rules c.tree c.frame.symbol u c.frame.value →
        Covers rules (c :: st) (w ++ u)

section
variable {rules : Array Rule}

theorem Covers.split {a b : List Cell} {w : List Token} (h : Covers rules (a ++ b) w) :
    ∃ u v, w = u ++ v ∧ Covers rules b u ∧ Covers rules a v := by
  induction a generalizing w with
  | nil => exact ⟨w, [], by simp, h, .nil⟩
  | cons c a ih =>
    cases h with
    | cons hst hc =>
      obtain ⟨u, v, rfl, hb, ha⟩ := ih hst
      exact ⟨u, v ++ _, by simp, hb, .cons ha hc⟩

/-- The cells of the right side of a rule, from left to right, derive what its action computes. -/
theorem Covers.derivesAll {R : Type} {cs : List Cell} {Xs : List Symbol} {f : Action Xs R} {a : R}
    {w : List Token} (h : Covers rules cs.reverse w) (hf : feed Xs f (frames cs) = some a) :
    DerivesAll rules (cs.map Cell.tree) Xs w f a := by
  induction cs generalizing Xs w with
  | nil =>
    cases h
    cases Xs with
    | nil => cases hf; exact .nil a
    | cons _ _ => cases hf
  | cons c cs ih =>
    rw [List.reverse_cons] at h
    obtain ⟨u, v, rfl, hc, hcs⟩ := h.split
    cases Xs with
    | nil => cases hf
    | cons X Xs =>
      obtain ⟨⟨state, Y, y⟩, d⟩ := c
      by_cases hY : Y = X
      · subst hY
        rw [frames_cons, feed_cons] at hf
        cases hc with
        | cons h₀ hd =>
          cases h₀
          exact .cons hd (ih hcs hf)
      · simp only [frames_cons, feed, dif_neg hY] at hf
        cases hf

end

namespace Automaton
variable {A : Automaton} {st st₁ : List Cell} {w w₁ : List Token}

/-- A move keeps the tokens covered and the tokens to come, put together, as they were. -/
theorem advance_covers {u : List Token} (h : A.advance st w = some (st₁, w₁))
    (hc : Covers A.rules st u) : ∃ u₁, Covers A.rules st₁ u₁ ∧ u₁ ++ w₁ = u ++ w := by
  rcases advance_cases h with ⟨t, state, rfl, _, rfl⟩ | ⟨rule, rfl, _, hr⟩
  · exact ⟨u ++ [t], .cons hc (.leaf t), by simp⟩
  · obtain ⟨r, v, state, hrule, hv, _, rfl⟩ := reduceCells_eq_some.mp hr
    rw [← List.take_append_drop r.rhs.length st] at hc
    obtain ⟨a, b, rfl, ha, hb⟩ := hc.split
    rw [← List.reverse_reverse (st.take r.rhs.length)] at hb
    have hd := hb.derivesAll hv
    exact ⟨a ++ b, .cons ha (.node hrule hd), rfl⟩

theorem Run.covers {u : List Token} (h : Run A st w st₁ w₁) (hc : Covers A.rules st u) :
    ∃ u₁, Covers A.rules st₁ u₁ ∧ u₁ ++ w₁ = u ++ w := by
  induction h generalizing u with
  | refl => exact ⟨u, hc, rfl⟩
  | step h _ ih =>
    obtain ⟨u₁, hc₁, e₁⟩ := advance_covers h hc
    obtain ⟨u₂, hc₂, e₂⟩ := ih hc₁
    exact ⟨u₂, hc₂, e₂.trans e₁⟩

/-- A run that turns all tokens into one cell has derived them. -/
theorem Run.derives {c : Cell} (h : Run A [] w [c] []) :
    Derives A.rules c.tree c.frame.symbol w c.frame.value := by
  obtain ⟨u, hc, e⟩ := h.covers .nil
  rw [List.append_nil, List.nil_append] at e
  subst e
  cases hc with
  | cons h₀ hd => cases h₀; exact hd

end Automaton

end PascalStack
