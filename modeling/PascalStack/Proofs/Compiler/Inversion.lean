import PascalStack.Compiler.Program

/-!
# What a successful step of a compilation did

One lemma a step: if it succeeds, these were its checks and this is the state after it.  Later proofs take
compilations apart with these lemmas and never look inside the steps.
-/

namespace PascalStack

namespace Compile
variable {α β : Type} {c d : Compiler}

theorem bind_eq_ok {x : Compile α} {f : α → Compile β} {b : β} :
    (x >>= f) c = .ok b d ↔ ∃ a c₁, x c = .ok a c₁ ∧ f a c₁ = .ok b d := by
  show EStateM.bind x f c = _ ↔ _
  unfold EStateM.bind
  cases x c with
  | ok a c₁ =>
    constructor
    · intro hf
      exact ⟨a, c₁, rfl, hf⟩
    · rintro ⟨a', c', h, hf⟩
      cases h
      exact hf
  | error e c₁ => exact ⟨nofun, nofun⟩

theorem pure_eq_ok {a b : α} : (pure a : Compile α) c = .ok b d ↔ a = b ∧ c = d := by
  show EStateM.Result.ok a c = _ ↔ _
  rw [EStateM.Result.ok.injEq]

theorem throw_eq_ok {e : SemanticError} {a : α} : (throw e : Compile α) c = .ok a d ↔ False :=
  ⟨nofun, nofun⟩

theorem ite_eq_ok {p : Prop} [Decidable p] {x y : Compile α} {a : α} :
    (if p then x else y) c = .ok a d ↔ (p ∧ x c = .ok a d) ∨ (¬p ∧ y c = .ok a d) := by
  by_cases hp : p
  · rw [if_pos hp]
    exact ⟨fun h => .inl ⟨hp, h⟩, fun h => h.elim And.right fun h => absurd hp h.1⟩
  · rw [if_neg hp]
    exact ⟨fun h => .inr ⟨hp, h⟩, fun h => h.elim (fun h => absurd h.1 hp) And.right⟩

theorem get_eq_ok {a : Compiler} : (get : Compile Compiler) c = .ok a d ↔ c = a ∧ c = d := by
  show EStateM.Result.ok c c = _ ↔ _
  rw [EStateM.Result.ok.injEq]

theorem modify_eq_ok {f : Compiler → Compiler} {u : PUnit} :
    (modify f : Compile PUnit) c = .ok u d ↔ f c = d := by
  show EStateM.Result.ok _ (f c) = _ ↔ _
  rw [EStateM.Result.ok.injEq]
  exact ⟨fun h => h.2, fun h => ⟨rfl, h⟩⟩

theorem check_eq_ok {e : Except SemanticError α} {a : α} :
    check e c = .ok a d ↔ e = .ok a ∧ c = d := by
  unfold check
  cases e with
  | ok b =>
    rw [Except.ok.injEq]
    exact pure_eq_ok
  | error e => exact ⟨nofun, nofun⟩

theorem scopes_eq_ok {s : Scopes} : scopes c = .ok s d ↔ c.scopes = s ∧ c = d := by
  show EStateM.Result.ok c.scopes c = _ ↔ _
  rw [EStateM.Result.ok.injEq]

theorem setScopes_eq_ok {s : Scopes} {u : Unit} :
    setScopes s c = .ok u d ↔ { c with scopes := s } = d :=
  modify_eq_ok

theorem typeOf_eq_ok {e : Expr} {t : DataType} :
    typeOf e c = .ok t d ↔ c.scopes.infer e = .ok t ∧ c = d := by
  unfold typeOf
  simp only [bind_eq_ok, scopes_eq_ok, check_eq_ok]
  constructor
  · rintro ⟨_, _, ⟨rfl, rfl⟩, h⟩
    exact h
  · intro h
    exact ⟨_, _, ⟨rfl, rfl⟩, h⟩

theorem allocate_eq_ok {size slot : Nat} :
    allocate size c = .ok slot d ↔
      c.scopes.nextSlot = slot ∧ { c with scopes := (c.scopes.allocate size).2 } = d := by
  show EStateM.Result.ok _ _ = _ ↔ _
  rw [EStateM.Result.ok.injEq]
  rfl

theorem declare_eq_ok {name : String} {v : Variable} {u : Unit} :
    declare name v c = .ok u d ↔
      ∃ s, c.scopes.declare name v = .ok s ∧ { c with scopes := s } = d := by
  unfold declare
  simp only [bind_eq_ok, scopes_eq_ok, check_eq_ok, setScopes_eq_ok]
  constructor
  · rintro ⟨_, _, ⟨rfl, rfl⟩, s, _, ⟨h, rfl⟩, hd⟩
    exact ⟨s, h, hd⟩
  · rintro ⟨s, h, hd⟩
    exact ⟨_, _, ⟨rfl, rfl⟩, s, _, ⟨h, rfl⟩, hd⟩

theorem nextIf_eq_ok {k : Nat} :
    nextIf c = .ok k d ↔ c.ifs = k ∧ { c with ifs := c.ifs + 1 } = d := by
  show EStateM.Result.ok _ _ = _ ↔ _
  rw [EStateM.Result.ok.injEq]

theorem nextWhile_eq_ok {k : Nat} :
    nextWhile c = .ok k d ↔ c.whiles = k ∧ { c with whiles := c.whiles + 1 } = d := by
  show EStateM.Result.ok _ _ = _ ↔ _
  rw [EStateM.Result.ok.injEq]

theorem nextFor_eq_ok {k : Nat} :
    nextFor c = .ok k d ↔ c.fors = k ∧ { c with fors := c.fors + 1 } = d := by
  show EStateM.Result.ok _ _ = _ ↔ _
  rw [EStateM.Result.ok.injEq]

theorem checkArity_eq_ok {b : Builtin} {count : Nat} {u : Unit} :
    checkArity b count c = .ok u d ↔ b.arity.accepts count = true ∧ c = d := by
  unfold checkArity
  simp only [ite_eq_ok, pure_eq_ok, throw_eq_ok, and_false, or_false, true_and]

def markCalled (c : Compiler) (name : String) : Compiler :=
  { c with scopes := c.scopes.modifyFunction name fun f => { f with called := true } }

theorem callee_eq_ok {name : String} {count : Nat} {f : Signature} :
    callee name count c = .ok f d ↔
      c.scopes.function? name = some f ∧ f.directive ≠ some .external ∧
        count = f.parameters.length ∧ markCalled c name = d := by
  unfold callee
  simp only [bind_eq_ok, scopes_eq_ok]
  cases hf : c.scopes.function? name with
  | none =>
    constructor
    · rintro ⟨_, _, ⟨rfl, rfl⟩, h⟩
      simp only [hf] at h
      exact absurd h nofun
    · rintro ⟨h, _⟩
      cases h
  | some g =>
    constructor
    · rintro ⟨_, _, ⟨rfl, rfl⟩, h⟩
      simp only [hf, bind_eq_ok, ite_eq_ok, throw_eq_ok, scopes_eq_ok, setScopes_eq_ok,
        pure_eq_ok] at h
      rcases h with ⟨_, _, _, h, _⟩ | ⟨hext, _, _, ⟨rfl, rfl⟩, _, _, rfl, h⟩
      · exact absurd h id
      · rcases h with ⟨_, _, _, h, _⟩ | ⟨hcount, rfl, rfl⟩
        · exact absurd h id
        · exact ⟨rfl, hext, Decidable.not_not.mp hcount, rfl⟩
    · rintro ⟨h, hext, hcount, rfl⟩
      cases h
      refine ⟨_, _, ⟨rfl, rfl⟩, ?_⟩
      simp only [hf, bind_eq_ok, ite_eq_ok, throw_eq_ok, scopes_eq_ok, setScopes_eq_ok,
        pure_eq_ok]
      refine .inr ⟨hext, _, _, ⟨rfl, rfl⟩, (), _, rfl, .inr ⟨fun h => h hcount, trivial, rfl⟩⟩

end Compile

end PascalStack
