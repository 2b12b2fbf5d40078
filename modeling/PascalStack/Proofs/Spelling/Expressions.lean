import PascalStack.Proofs.Spelling.Trees

/-!
# Expressions in small letters

* `Agrees`      two checks give the same, or errors of one kind;
* `Commutes`    a compilation and the one in small letters give the same but for capital letters, or errors of one kind;
* `infer_small`, `Expr.compile_small`   types and code of expressions do not depend on capital letters.
-/

namespace PascalStack

section
variable {α β γ δ : Type}

/-- The second check gives what the first gives, under `f`, or both fail with errors of one kind. -/
def Agrees (f : α → β) (x : Except SemanticError α) (y : Except SemanticError β) : Prop :=
  match x with
  | .ok a => y = .ok (f a)
  | .error e => ∃ e', y = .error e' ∧ e'.kind = e.kind

theorem Agrees.refl (x : Except SemanticError α) : Agrees id x x := by
  cases x with
  | ok a => exact rfl
  | error e => exact ⟨e, rfl, rfl⟩

theorem Agrees.error {f : α → β} {e e' : SemanticError} (h : e'.kind = e.kind) :
    Agrees f (.error e) (.error e') :=
  ⟨e', rfl, h⟩

theorem Agrees.bind {f : α → β} {g : γ → δ} {x : Except SemanticError α} {y : Except SemanticError β}
    {k : α → Except SemanticError γ} {l : β → Except SemanticError δ} (h : Agrees f x y)
    (hk : ∀ a, Agrees g (k a) (l (f a))) : Agrees g (x >>= k) (y >>= l) := by
  cases x with
  | ok a =>
    cases h
    exact hk a
  | error e =>
    obtain ⟨e', rfl, hkind⟩ := h
    exact ⟨e', rfl, hkind⟩

theorem Agrees.guard {f : α → β} {p q : Prop} [Decidable p] [Decidable q] {e e' : SemanticError}
    {k : Unit → Except SemanticError α} {l : Unit → Except SemanticError β} (hpq : p ↔ q)
    (hkind : e'.kind = e.kind) (hk : Agrees f (k ()) (l ())) :
    Agrees f (if p then MonadExcept.throw e >>= k else k ())
      (if q then MonadExcept.throw e' >>= l else l ()) := by
  by_cases hp : p
  · rw [if_pos hp, if_pos (hpq.mp hp)]
    exact .error hkind
  · rw [if_neg hp, if_neg fun hq => hp (hpq.mpr hq)]
    exact hk

/-- What comes out of the second compilation, in small letters, is what comes out of the first in small
letters. -/
def Commutes (f : α → β) (x : Compile α) (y : Compile β) : Prop :=
  ∀ c, match x c with
    | .ok a d => y c.small = .ok (f a) d.small
    | .error e _ => ∃ e' d, y c.small = .error e' d ∧ e'.kind = e.kind

namespace Commutes

theorem pure {f : α → β} {a : α} {b : β} (h : b = f a) : Commutes f (Pure.pure a) (Pure.pure b) := by
  intro c
  subst h
  exact rfl

theorem bind {f : α → β} {g : γ → δ} {x : Compile α} {y : Compile β} {k : α → Compile γ}
    {l : β → Compile δ} (h : Commutes f x y) (hk : ∀ a, Commutes g (k a) (l (f a))) :
    Commutes g (x >>= k) (y >>= l) := by
  intro c
  have hc := h c
  simp only [Bind.bind, EStateM.bind]
  cases hx : x c with
  | ok a d =>
    rw [hx] at hc
    simp only [hc]
    exact hk a d
  | error e d =>
    rw [hx] at hc
    obtain ⟨e', d', hy, hkind⟩ := hc
    simp only [hy]
    exact ⟨e', d', rfl, hkind⟩

theorem throw {f : α → β} {e e' : SemanticError} (h : e'.kind = e.kind) :
    Commutes f (MonadExcept.throw e) (MonadExcept.throw e') :=
  fun c => ⟨e', c.small, rfl, h⟩

theorem check {f : α → β} {x : Except SemanticError α} {y : Except SemanticError β} (h : Agrees f x y) :
    Commutes f (Compile.check x) (Compile.check y) := by
  cases x with
  | ok a =>
    cases h
    exact .pure rfl
  | error e =>
    obtain ⟨e', rfl, hkind⟩ := h
    exact .throw hkind

theorem get : Commutes Compiler.small MonadState.get MonadState.get := fun _ => rfl

theorem scopes : Commutes Scopes.small Compile.scopes Compile.scopes := fun _ => rfl

theorem modified {g h : Compiler → Compiler} (hg : ∀ c, h c.small = (g c).small) :
    Commutes id (modify g) (modify h) := by
  intro c
  show EStateM.Result.ok () (h c.small) = _
  rw [hg]

theorem setScopes {s t : Scopes} (h : t = s.small) :
    Commutes id (Compile.setScopes s) (Compile.setScopes t) := by
  subst h
  exact .modified fun _ => rfl

theorem ite {f : α → β} {p : Prop} [Decidable p] {x x' : Compile α} {y y' : Compile β}
    (h : Commutes f x y) (h' : Commutes f x' y') :
    Commutes f (if p then x else x') (if p then y else y') := by
  split
  · exact h
  · exact h'

/-- A condition under which both compilations fail. -/
theorem guard {f : α → β} {p q : Prop} [Decidable p] [Decidable q] {e e' : SemanticError}
    {k : Unit → Compile α} {l : Unit → Compile β} (hpq : p ↔ q) (hkind : e'.kind = e.kind)
    (hk : Commutes f (k ()) (l ())) :
    Commutes f (if p then MonadExcept.throw e >>= k else k ())
      (if q then MonadExcept.throw e' >>= l else l ()) := by
  by_cases hp : p
  · rw [if_pos hp, if_pos (hpq.mp hp)]
    exact .bind (f := id) (.throw hkind) fun _ => hk
  · rw [if_neg hp, if_neg fun hq => hp (hpq.mpr hq)]
    exact hk

end Commutes

end

/-! ## types -/

theorem truthName?_foldAscii (name : String) : truthName? (foldAscii name) = truthName? name := by
  unfold truthName?
  rw [foldAscii_foldAscii]

theorem Builtin.ofName?_foldAscii (name : String) : Builtin.ofName? (foldAscii name) = Builtin.ofName? name := by
  unfold Builtin.ofName?
  rw [foldAscii_foldAscii]

namespace Scopes
variable (s : Scopes)

theorem indexed_small (name : String) : Agrees id (s.indexed name) (s.small.indexed (foldAscii name)) := by
  unfold indexed
  rw [resolve?_small]
  cases s.resolve? name with
  | some v => exact rfl
  | none => exact .error rfl

theorem elementType_small (name : String) (v : Variable) :
    Agrees id (elementType name v) (elementType (foldAscii name) v) := by
  unfold elementType
  cases v.type <;> first | exact rfl | exact .error rfl

theorem access_small (a : Access) : Agrees id (s.access a) (s.small.access a.small) := by
  cases a using Access.byForm with
  | name id =>
    rw [Access.small, access, access, truthName?_foldAscii, resolve?_small, function?_small]
    cases truthName? id with
    | some b => exact rfl
    | none =>
      cases s.resolve? id with
      | some v => exact rfl
      | none =>
        cases s.function? id with
        | some f => exact rfl
        | none => exact .error rfl
  | element id i => exact .bind (s.indexed_small id) (elementType_small id)
  | _ => exact .error rfl

theorem callType_small (name : String) : Agrees id (s.callType name) (s.small.callType (foldAscii name)) := by
  unfold callType
  rw [Builtin.ofName?_foldAscii, function?_small]
  cases Builtin.ofName? name with
  | some b => exact .refl _
  | none =>
    cases s.function? name with
    | some f => exact rfl
    | none => exact .error rfl

/-- The type of an expression does not depend on capital letters. -/
theorem infer_small (e : Expr) : Agrees id (s.infer e) (s.small.infer e.small) := by
  fun_induction s.infer e with
  | case1 c => exact rfl
  | case2 a => exact s.access_small a
  | case3 name arguments => exact s.callType_small name
  | case4 op left right h =>
    rw [Expr.small, infer, if_pos h]
    exact rfl
  | case5 op left right h hl hr =>
    rw [Expr.small, infer, if_neg h]
    exact hl.bind fun l => hr.bind fun r => rfl
  | case6 sign operand ih => exact ih
  | case7 base exponent ih => exact ih
  | case8 operand => exact rfl
  | case9 => exact rfl
  | case10 e members ih => exact ih
  | case11 low high members ih => exact ih

end Scopes

/-! ## code -/

open Compile

theorem typeOf_small (e : Expr) : Commutes id (typeOf e) (typeOf e.small) :=
  .bind .scopes fun s => .check (s.infer_small e)

theorem checkArity_small (b : Builtin) (count : Nat) :
    Commutes id (checkArity b count) (checkArity b count) := by
  unfold checkArity
  split
  · exact .pure rfl
  · exact .throw rfl

theorem assignConversion_small (t u : DataType) (place place' : Place) :
    Agrees id (assignConversion t u place) (assignConversion t u place') := by
  unfold assignConversion
  split
  · exact rfl
  · cases t <;> cases u <;> first | exact rfl | exact .error rfl

theorem exponentOf_small (e : Expr) : Agrees id (exponentOf e) (exponentOf e.small) := by
  unfold exponentOf
  rw [Expr.constant?_small]
  exact .refl _

theorem Scopes.modifyFunction_small (s : Scopes) (name : String) {g : Signature → Signature}
    (hg : ∀ f, (g f).small = g f.small) :
    s.small.modifyFunction (foldAscii name) g = (s.modifyFunction name g).small := by
  have hmodify := Table.map_modify Signature.small s.functions name hg
  unfold modifyFunction
  rw [Table.modify_foldAscii]
  show { s.small with functions := (s.functions.map Signature.small).modify name g } =
    { s.small with functions := (s.functions.modify name g).map Signature.small }
  rw [hmodify]

theorem callee_small (name : String) (count : Nat) :
    Commutes Signature.small (callee name count) (callee (foldAscii name) count) := by
  unfold callee
  refine .bind .scopes fun s => ?_
  rw [Scopes.function?_small]
  cases s.function? name with
  | none => exact .throw rfl
  | some f =>
    refine .guard .rfl rfl (.bind .scopes fun s => ?_)
    refine .bind (.setScopes (s.modifyFunction_small name fun _ => rfl)) fun _ => ?_
    exact .guard .rfl rfl (.pure rfl)

theorem addressOf_small (v : Variable) (i : Expr) {x y : Compile (List Line)} (h : Commutes smallCode x y) :
    Commutes smallCode (addressOf v i x) (addressOf v i.small y) := by
  refine .bind (typeOf_small i) fun t => .bind (.check (.refl _)) fun _ => .bind h fun code => .pure ?_
  rw [smallCode_append]
  rfl

theorem characterOf_small (v : Variable) (i : Expr) {x y : Compile (List Line)} (h : Commutes smallCode x y) :
    Commutes smallCode (characterOf v i x) (characterOf v i.small y) := by
  refine .bind (typeOf_small i) fun t => .bind (.check (.refl _)) fun _ => .bind h fun code => .pure ?_
  rw [smallCode_append, smallCode_append]
  rfl

theorem smallCode_powerCode (t : DataType) (base : List Line) (n : Nat) :
    smallCode (powerCode t base n) = powerCode t (smallCode base) n := by
  cases n with
  | zero =>
    show smallCode (emit [oneOf t]) = emit [oneOf t]
    unfold oneOf
    split <;> rfl
  | succ n =>
    have hdup : smallCode (emit (List.replicate n (.dup 1))) = emit (List.replicate n (.dup 1)) := by
      refine smallCode_emit fun o ho target => ?_
      rw [List.eq_of_mem_replicate ho]
      simp
    rw [powerCode, powerCode, smallCode_append, smallCode_append, hdup, smallCode_emitBasic]

theorem smallCode_sign (sign : Sign) (t : DataType) : smallCode (emit (sign.code t)) = emit (sign.code t) := by
  cases sign <;> cases t <;> rfl

theorem smallCode_push (c : Constant) : smallCode (emit [c.push]) = emit [c.push] := by
  cases c <;> rfl

/-! ## one lemma for each form of expression -/

/-- The code of an expression does not depend on capital letters. -/
def Expr.CompilesSmall (e : Expr) : Prop := Commutes smallCode e.compile e.small.compile

def Access.CompilesSmall (a : Access) : Prop := Commutes smallCode a.compile a.small.compile

theorem call_small {name : String} {arguments : List Argument}
    (hb : ∀ b ts, Commutes smallCode (compileBuiltin b ts arguments) (compileBuiltin b ts (smallArguments arguments)))
    (ha : ∀ label k ts, Commutes smallCode (compileArguments label k ts arguments)
      (compileArguments (foldAscii label) k ts (smallArguments arguments))) :
    (Expr.call name arguments).CompilesSmall := by
  unfold Expr.CompilesSmall
  rw [Expr.small, Expr.compile, Expr.compile, Builtin.ofName?_foldAscii, length_smallArguments]
  cases Builtin.ofName? name with
  | some b =>
    simp only
    split
    · refine .bind (checkArity_small b _) fun _ => .bind (hb b _) fun code => .pure ?_
      rw [smallCode_append, smallCode_emitBasic]
    · exact .throw rfl
  | none =>
    refine .bind (callee_small name _) fun f => .bind (ha f.label 1 _) fun code => .pure ?_
    rw [smallCode_append, smallCode_callCode]
    rfl

theorem binary_small {op : BinaryOp} {left right : Expr} (hl : left.CompilesSmall)
    (hr : right.CompilesSmall) : (Expr.binary op left right).CompilesSmall := by
  unfold Expr.CompilesSmall
  rw [Expr.small, Expr.compile, Expr.compile]
  refine .bind (typeOf_small left) fun t => .bind (typeOf_small right) fun u => ?_
  refine .bind (.check (.refl _)) fun k => .bind hl fun a => .bind hr fun b => .pure ?_
  simp only [smallCode_append, smallCode_emitBasic, smallCode_emitConversion, id_eq]

theorem signed_small {sign : Sign} {operand : Expr} (h : operand.CompilesSmall) :
    (Expr.signed sign operand).CompilesSmall := by
  unfold Expr.CompilesSmall
  rw [Expr.small, Expr.compile, Expr.compile]
  refine .bind (typeOf_small operand) fun t => .bind (.check (.refl _)) fun _ => .bind h fun code => .pure ?_
  rw [smallCode_append, smallCode_sign]
  rfl

theorem power_small {base exponent : Expr} (h : base.CompilesSmall) :
    (Expr.power base exponent).CompilesSmall := by
  unfold Expr.CompilesSmall
  rw [Expr.small, Expr.compile, Expr.compile]
  refine .bind (.check (exponentOf_small exponent)) fun n => .bind (typeOf_small base) fun t => ?_
  refine .bind (.check (.refl _)) fun _ => .ite (.pure ?_) (.bind h fun code => .pure ?_)
  · exact (smallCode_powerCode t [] 0).symm
  · exact (smallCode_powerCode t code n).symm

theorem not_small {operand : Expr} (h : operand.CompilesSmall) : (Expr.not operand).CompilesSmall := by
  unfold Expr.CompilesSmall
  rw [Expr.small, Expr.compile, Expr.compile]
  refine .bind (typeOf_small operand) fun t => .bind (.check (.refl _)) fun _ => .bind h fun code => .pure ?_
  rw [smallCode_append, smallCode_emitBasic]

theorem constant_small (c : Constant) : (Expr.constant c).CompilesSmall := by
  unfold Expr.CompilesSmall
  rw [Expr.small, Expr.compile]
  exact .pure (smallCode_push c).symm

theorem name_small (id : String) : (Access.name id).CompilesSmall := by
  unfold Access.CompilesSmall
  rw [Access.small, Access.compile, Access.compile, truthName?_foldAscii]
  cases truthName? id with
  | some b => exact .pure rfl
  | none =>
    refine .bind .scopes fun s => ?_
    rw [Scopes.resolve?_small]
    cases s.resolve? id with
    | some v => exact .guard .rfl rfl (.pure rfl)
    | none =>
      refine .bind .scopes fun s => ?_
      rw [Scopes.function?_small, Option.isSome_map]
      exact .ite (.bind (callee_small id 0) fun f => .pure rfl) (.throw rfl)

theorem index_small {id : String} {i : Expr} (h : i.CompilesSmall) :
    (Access.index (.name id) [i]).CompilesSmall := by
  unfold Access.CompilesSmall
  rw [Access.small, smallExprs, smallExprs, Access.small, Access.compile, Access.compile]
  refine .bind .scopes fun s => .bind (.check (s.indexed_small id)) fun v => ?_
  simp only [id_eq]
  cases v.type with
  | array =>
    refine .bind (addressOf_small v i h) fun code => .pure ?_
    rw [smallCode_append]
    rfl
  | string => exact characterOf_small v i h
  | integer => exact .throw rfl
  | real => exact .throw rfl
  | boolean => exact .throw rfl
  | char => exact .throw rfl

section
variable {b : Builtin} {t : DataType} {ts : List DataType} {e : Expr} {arguments : List Argument}

theorem compileBuiltin_small_cons (he : e.CompilesSmall)
    (h : Commutes smallCode (compileBuiltin b ts arguments) (compileBuiltin b ts (smallArguments arguments))) :
    Commutes smallCode (compileBuiltin b (t :: ts) (.value e :: arguments))
      (compileBuiltin b (t :: ts) (.value e.small :: smallArguments arguments)) := by
  rw [compileBuiltin, compileBuiltin]
  refine .bind (typeOf_small e) fun u => .bind (.check (.refl _)) fun _ => ?_
  exact .bind he fun code => .bind h fun rest => .pure (smallCode_append code rest).symm

theorem compileArguments_small_cons {label : String} {k : Nat} (he : e.CompilesSmall)
    (h : Commutes smallCode (compileArguments label (k + 1) ts arguments)
      (compileArguments (foldAscii label) (k + 1) ts (smallArguments arguments))) :
    Commutes smallCode (compileArguments label k (t :: ts) (.value e :: arguments))
      (compileArguments (foldAscii label) k (t :: ts) (.value e.small :: smallArguments arguments)) := by
  rw [compileArguments, compileArguments]
  refine .bind (typeOf_small e) fun u => .bind (.check (assignConversion_small t u _ _)) fun conversion => ?_
  refine .bind he fun code => .bind h fun rest => .pure ?_
  simp only [smallCode_append, smallCode_emitConversion, id_eq]

end

/-! ## all expressions -/

mutual

theorem Expr.compile_small : (e : Expr) → e.CompilesSmall
  | .access a => a.compile_small
  | .call _ arguments => call_small (compileBuiltin_small arguments) (compileArguments_small arguments)
  | .binary _ left right => binary_small left.compile_small right.compile_small
  | .signed _ operand => signed_small operand.compile_small
  | .power base _ => power_small base.compile_small
  | .not operand => not_small operand.compile_small
  | .constant c => constant_small c
  | .set members => compileMembers_small members

theorem Access.compile_small : (a : Access) → a.CompilesSmall
  | .name id => name_small id
  | .index (.name _) [i] => index_small i.compile_small
  | .index (.name _) [] => .throw rfl
  | .index (.name _) (_ :: _ :: _) => .throw rfl
  | .index (.index _ _) _ => .throw rfl
  | .index (.field _ _) _ => .throw rfl
  | .index (.deref _) _ => .throw rfl
  | .field _ _ => .throw rfl
  | .deref _ => .throw rfl

theorem compileBuiltin_small : (arguments : List Argument) → (b : Builtin) → (ts : List DataType) →
    Commutes smallCode (compileBuiltin b ts arguments) (compileBuiltin b ts (smallArguments arguments))
  | [], _, [] => .pure rfl
  | [], _, _ :: _ => .pure rfl
  | _ :: _, _, [] => .pure rfl
  | .value e :: arguments, b, _ :: ts =>
    compileBuiltin_small_cons e.compile_small (compileBuiltin_small arguments b ts)
  | .wide _ _ :: _, _, _ :: _ => .throw rfl
  | .precise _ _ _ :: _, _, _ :: _ => .throw rfl

theorem compileArguments_small : (arguments : List Argument) → (label : String) → (k : Nat) →
    (ts : List DataType) → Commutes smallCode (compileArguments label k ts arguments)
      (compileArguments (foldAscii label) k ts (smallArguments arguments))
  | [], _, _, [] => .pure rfl
  | [], _, _, _ :: _ => .pure rfl
  | _ :: _, _, _, [] => .pure rfl
  | .value e :: arguments, label, k, _ :: ts =>
    compileArguments_small_cons e.compile_small (compileArguments_small arguments label (k + 1) ts)
  | .wide _ _ :: _, _, _, _ :: _ => .throw rfl
  | .precise _ _ _ :: _, _, _, _ :: _ => .throw rfl

theorem compileMembers_small : (members : List Member) →
    Commutes smallCode (compileMembers members) (compileMembers (smallMembers members))
  | [] => .pure rfl
  | .single e :: members =>
    .bind e.compile_small fun code => .bind (compileMembers_small members) fun rest =>
      .pure (smallCode_append code rest).symm
  | .range low high :: members =>
    .bind low.compile_small fun a => .bind high.compile_small fun b =>
      .bind (compileMembers_small members) fun rest => .pure (by rw [smallCode_append, smallCode_append])

end

end PascalStack
