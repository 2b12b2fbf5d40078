import PascalStack.Grammar.Parser

/-!
# Derivations of token sequences

What it means that a sequence of tokens is derived from a symbol, independently of any automaton.

* `Derivation`   the tree of a derivation;
* `Derives`      a tree derives tokens from a symbol, and the actions of its rules compute a value;
* `DerivesAll`   the same for the symbols on the right of a rule.

The error mark stands for no tokens at all: no derivation uses a rule that has it on its right.
-/

namespace PascalStack

/-- A token, or a rule (by its place in the list of rules) with a tree for each symbol on its
right. -/
inductive Derivation where
  | leaf (t : Token)
  | node (rule : Nat) (parts : List Derivation)

mutual

inductive Derives (rules : Array Rule) : Derivation → (X : Symbol) → List Token → X.Value → Prop
  | leaf (t : Token) : Derives rules (.leaf t) (.terminal t.terminal) [t] t.value
  | node {rule : Nat} {r : Rule} {ds : List Derivation} {w : List Token} {v : r.lhs.Value} :
      rules[rule]? = some r → DerivesAll rules ds r.rhs w r.action v →
        Derives rules (.node rule ds) (.nonterminal r.lhs) w v

inductive DerivesAll (rules : Array Rule) :
    List Derivation → (Xs : List Symbol) → List Token → {R : Type} → Action Xs R → R → Prop
  | nil {R : Type} (a : R) : DerivesAll rules [] [] [] (R := R) a a
  | cons {R : Type} {d : Derivation} {ds : List Derivation} {X : Symbol} {Xs : List Symbol}
      {u w : List Token} {x : X.Value} {f : X.Value → Action Xs R} {a : R} :
      Derives rules d X u x → DerivesAll rules ds Xs w (f x) a →
        DerivesAll rules (d :: ds) (X :: Xs) (u ++ w) (R := R) f a

end

end PascalStack
