import PascalStack.Typing.Rules

/-!
# Types of expressions

* `truthName?`       the names `true` and `false`;
* `Scopes.access`    the type of a variable or of a part of one;
* `Scopes.infer`     the type of an expression.  Operands of comparisons and of logical operators are not looked at.
-/

namespace PascalStack

/-- The truth value that a name stands for, in any case. -/
def truthName? (name : String) : Option Bool :=
  if foldAscii name = "true" then some true
  else if foldAscii name = "false" then some false
  else none

/-- The type of a sum, difference or product. -/
def widerType (left right : DataType) : DataType :=
  if left = .real ∧ right.isNumeric ∨ right = .real ∧ left.isNumeric then .real else left

namespace Scopes

/-- The type of an element of `v`: an array element, or a character of a string. -/
def elementType (name : String) (v : Variable) : Except SemanticError DataType :=
  match v.type with
  | .array => .ok v.element
  | .string => .ok .char
  | _ => .error (.notAnArray name)

/-- The type of an access; the name of a function stands for its result. -/
def access (s : Scopes) : Access → Except SemanticError DataType
  | .name id =>
    if (truthName? id).isSome then .ok .boolean
    else
      match s.resolve? id with
      | some v => .ok v.type
      | none =>
        match s.function? id with
        | some f => .ok f.result
        | none => .error (.undeclared .variable id)
  | .index (.name id) [_] => do elementType id (← s.indexed id)
  | .index _ _ => .error (.unsupported .multidimensional)
  | .field _ _ => .error (.unsupported .recordField)
  | .deref _ => .error (.unsupported .pointer)

/-- The type of the result of a call. -/
def callType (s : Scopes) (name : String) : Except SemanticError DataType :=
  match Builtin.ofName? name with
  | some b =>
    match b.result? with
    | some t => .ok t
    | none => .error (.unsupported (.procedureAsFunction b))
  | none =>
    match s.function? name with
    | some f => .ok f.result
    | none => .error (.undeclared .function name)

def infer (s : Scopes) : Expr → Except SemanticError DataType
  | .constant c => .ok c.type
  | .access a => s.access a
  | .call name _ => s.callType name
  | .binary op left right =>
    if op.isRelational || op.isLogical then .ok .boolean
    else do
      let l ← s.infer left
      let r ← s.infer right
      return widerType l r
  | .signed _ operand => s.infer operand
  | .power base _ => s.infer base
  | .not _ => .ok .boolean
  | .set [] => .ok .integer
  | .set (.single e :: _) => s.infer e
  | .set (.range low _ :: _) => s.infer low

end Scopes

end PascalStack
