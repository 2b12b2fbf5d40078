import PascalStack.Proofs.Grammar.Language

/-!
# Names in the trees of source texts

* `Token.IsName`            letters, digits and underscores;
* `Derives.keeps`           what the actions of all rules keep holds of every derived value;
* `functions_named`         the functions of a program have names that the lexer read.
-/

namespace PascalStack

/-- A nonempty text of letters, digits and underscores. -/
structure IsName (name : String) : Prop where
  nonempty : name.toList ≠ []
  parts : ∀ c ∈ name.toList, isWordPart c = true

/-! ## names among the tokens -/

theorem isWordPart_of_isWordStart {c : Char} (h : isWordStart c = true) : isWordPart c = true := by
  unfold isWordStart at h
  unfold isWordPart Char.isAlphanum
  grind

def Token.Named : Token → Prop
  | .identifier name => IsName name
  | _ => True

theorem Token.named_ofWord {w : List Char} (hne : w ≠ []) (h : ∀ c ∈ w, isWordPart c = true) :
    (Token.ofWord w).Named := by
  unfold Token.ofWord
  split
  · trivial
  · refine ⟨?_, ?_⟩ <;> rw [String.toList_ofList] <;> assumption

def Piece.Named (p : Piece) : Prop := ∀ t text, p = .token t text → t.Named

theorem Piece.named_number (c : Char) (cs : List Char) : (Piece.number c cs).1.Named := by
  intro t text h
  unfold Piece.number at h
  dsimp only at h
  split at h
  · split at h
    · cases h; trivial
    · split at h <;> cases h; trivial
  · split at h <;> cases h; trivial

theorem Piece.named_sign (c : Char) (cs : List Char) : (Piece.sign c cs).1.Named := by
  intro t text h
  unfold Piece.sign at h
  split at h <;> cases h
  trivial

theorem Piece.named_word {c : Char} (hc : isWordStart c = true) (cs : List Char) :
    (Piece.word c cs).1.Named := by
  intro t text h
  cases h
  refine Token.named_ofWord (List.cons_ne_nil _ _) fun d hd => ?_
  rcases List.mem_cons.mp hd with rfl | hd
  · exact isWordPart_of_isWordStart hc
  · exact (List.all_eq_true.mp (List.all_takeWhile ..)) d hd

theorem Piece.named_first (c : Char) (cs : List Char) : (Piece.first c cs).1.Named := by
  unfold Piece.first
  split
  · exact nofun
  · split
    · rename_i hc
      exact Piece.named_word hc cs
    · split
      · exact Piece.named_number c cs
      · split
        · split <;> exact nofun
        · split <;> exact nofun
        · split
          · intro t text h
            cases h
            trivial
          · exact nofun
        · exact Piece.named_sign c cs

theorem named_pieces {fuel : Nat} {cs : List Char} : ∀ p ∈ piecesUpTo fuel cs, p.Named := by
  induction fuel generalizing cs with
  | zero => exact nofun
  | succ fuel ih =>
    cases cs with
    | nil => exact nofun
    | cons c cs =>
      intro p hp
      rcases List.mem_cons.mp hp with rfl | hp
      · exact Piece.named_first c cs
      · exact ih p hp

theorem mem_locate {line n : Nat} {ps : List Piece} {p : Piece} (h : (n, p) ∈ locate line ps) :
    p ∈ ps := by
  induction ps generalizing line with
  | nil => cases h
  | cons q ps ih =>
    rcases List.mem_cons.mp h with he | h
    · cases he
      exact List.mem_cons_self ..
    · exact List.mem_cons_of_mem _ (ih h)

theorem named_tokens (source : String) : ∀ t ∈ tokensOf (lexemes source), t.Named := by
  intro t ht
  obtain ⟨l, hl, rfl⟩ := List.mem_map.mp ht
  obtain ⟨⟨n, p⟩, hp, he⟩ := List.mem_filterMap.mp hl
  split at he
  · rename_i line u text hnp
    cases he
    cases hnp
    exact named_pieces _ (mem_locate hp) u text rfl
  · cases he

/-! ## names in derived values -/

/-- A function whose result has a property if its arguments have theirs. -/
def Keeps (good : (X : Symbol) → X.Value → Prop) {R : Type} (result : R → Prop) :
    (Xs : List Symbol) → Action Xs R → Prop
  | [], a => result a
  | X :: Xs, f => ∀ x, good X x → Keeps good result Xs (f x)

section
variable {rules : Array Rule} {good : (X : Symbol) → X.Value → Prop}

mutual

/-- What the actions of all rules keep holds of every derived value. -/
theorem Derives.keeps
    (hrules : ∀ r ∈ rules, Keeps good (good (.nonterminal r.lhs)) r.rhs r.action)
    {d : Derivation} {X : Symbol} {w : List Token} {v : X.Value} (h : Derives rules d X w v)
    (hw : ∀ t ∈ w, good (.terminal t.terminal) t.value) : good X v := by
  cases h with
  | leaf t => exact hw t (List.mem_cons_self ..)
  | node hr hds =>
    exact hds.keeps hrules (hrules _ (Array.mem_of_getElem? hr)) hw

theorem DerivesAll.keeps
    (hrules : ∀ r ∈ rules, Keeps good (good (.nonterminal r.lhs)) r.rhs r.action)
    {ds : List Derivation} {Xs : List Symbol} {w : List Token} {R : Type} {f : Action Xs R} {a : R}
    {result : R → Prop} (h : DerivesAll rules ds Xs w f a) (hf : Keeps good result Xs f)
    (hw : ∀ t ∈ w, good (.terminal t.terminal) t.value) : result a := by
  cases h with
  | nil => exact hf
  | cons hd hds =>
    have hx := hd.keeps hrules fun t ht => hw t (List.mem_append_left _ ht)
    exact hds.keeps hrules (hf _ hx) fun t ht => hw t (List.mem_append_right _ ht)

end

end

def Symbol.Named : (X : Symbol) → X.Value → Prop
  | .terminal .identifier, x => IsName x
  | .nonterminal .identifier, x => IsName x
  | .nonterminal .functionName, x => IsName x
  | .nonterminal .heading, h => IsName h.name
  | .nonterminal .functionDecl, f => IsName f.name
  | .nonterminal .functionPart, fs => ∀ f ∈ fs, IsName f.name
  | .nonterminal .functionList, fs => ∀ f ∈ fs, IsName f.name
  | .nonterminal .block, b => ∀ f ∈ b.functions, IsName f.name
  | .nonterminal .program, p => ∀ f ∈ p.block.functions, IsName f.name
  | _, _ => True

/-- Phrases in whose values functions are named. -/
def Nonterminal.isNaming : Nonterminal → Bool
  | .identifier | .functionName | .heading | .functionDecl | .functionPart | .functionList | .block
  | .program => true
  | _ => false

theorem Symbol.named_of_not_naming {n : Nonterminal} (h : n.isNaming = false) (v : n.Value) :
    Symbol.Named (.nonterminal n) v := by
  cases n <;> trivial

theorem keeps_of_all {good : (X : Symbol) → X.Value → Prop} {R : Type} {result : R → Prop}
    (h : ∀ a, result a) (Xs : List Symbol) (f : Action Xs R) : Keeps good result Xs f := by
  induction Xs with
  | nil => exact h f
  | cons X Xs ih => exact fun x _ => ih (f x)

/-- Only the rules for programs and functions name functions. -/
theorem rules_named :
    ∀ r ∈ Grammar.rules, Keeps Symbol.Named (Symbol.Named (.nonterminal r.lhs)) r.rhs r.action := by
  have hprogram : ∀ r ∈ Grammar.programRules,
      Keeps Symbol.Named (Symbol.Named (.nonterminal r.lhs)) r.rhs r.action := by
    simp [Grammar.programRules, Keeps, Symbol.Named, Block.functions]
  have hfunction : ∀ r ∈ Grammar.functionRules,
      Keeps Symbol.Named (Symbol.Named (.nonterminal r.lhs)) r.rhs r.action := by
    have hlist : ∀ fs : List FunctionDecl, (∀ f ∈ fs, IsName f.name) → ∀ f : FunctionDecl,
        IsName f.name → ∀ g ∈ fs ++ [f], IsName g.name := by
      intro fs hfs f hf g hg
      rcases List.mem_append.mp hg with hg | hg
      · exact hfs g hg
      · rwa [List.mem_singleton.mp hg]
    simp only [Grammar.functionRules, List.forall_mem_cons, Keeps, Symbol.Named]
    refine ⟨nofun, fun fs h _ _ => h, fun f h => by simpa using h, fun fs h _ _ f hf => hlist fs h f hf,
      fun _ h _ _ _ _ => h, fun _ h _ _ _ _ => h, fun _ h _ _ _ _ => h, ?_⟩
    simp
  have hother : ∀ r ∈ Grammar.variableRules ++ Grammar.statementRules ++ Grammar.accessRules
      ++ Grammar.exprRules ++ Grammar.operatorRules, r.lhs.isNaming = false := by decide
  intro r hr
  rw [Grammar.rules, List.mem_toArray] at hr
  simp only [List.append_assoc, List.mem_append] at hr hother
  rcases hr with hr | hr | hr
  · exact hprogram r hr
  · exact hfunction r hr
  · exact keeps_of_all (Symbol.named_of_not_naming (hother r hr)) _ _

/-- **The functions of a program have names that the lexer read.** -/
theorem functions_named {source : String} {p : Program} (h : (report source).accepted = .ok p) :
    ∀ f ∈ p.block.functions, IsName f.name := by
  obtain ⟨d, hd⟩ := parse_eq_intact_iff_derivation.mp (accepted_eq_ok_iff.mp h)
  have htokens : ∀ t ∈ tokensOf (lexemes source), Symbol.Named (.terminal t.terminal) t.value := by
    intro t ht
    have hnamed := named_tokens source t ht
    cases t <;> exact hnamed
  exact hd.keeps rules_named htokens

end PascalStack
