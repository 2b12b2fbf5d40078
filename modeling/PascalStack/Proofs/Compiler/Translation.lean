import PascalStack.Proofs.Compiler.Scopes
import PascalStack.Proofs.Semantics.Eval

/-!
# Code and the trees it comes from

The code of a tree as a relation.  It speaks of the names in scope once all of the program is read, so it
does not depend on what had been read when the code was produced.

* `Expr.setFree`, …        trees without set constructors;
* `Assignable`             the conversion of a value for a place of another type;
* `ExprCode`, `AccessCode`, `ArgumentsCode`, `MembersCode`    the code of expressions;
* `slotsOf`                the slots that code names;
* `Counters`               the numbers of the next labels;
* `StmtCode`, `StmtsCode`  the code of statements, and how the counters change.
-/

namespace PascalStack

/-! ## trees without set constructors -/

mutual

@[simp] def Expr.setFree : Expr → Bool
  | .access a => a.setFree
  | .call _ arguments => argumentsSetFree arguments
  | .binary _ left right => left.setFree && right.setFree
  | .signed _ operand => operand.setFree
  | .power base exponent => base.setFree && exponent.setFree
  | .not operand => operand.setFree
  | .constant _ => true
  | .set _ => false

@[simp] def Access.setFree : Access → Bool
  | .name _ => true
  | .index base indices => base.setFree && exprsSetFree indices
  | .field base _ => base.setFree
  | .deref base => base.setFree

def Argument.setFree : Argument → Bool
  | .value e => e.setFree
  | .wide e width => e.setFree && width.setFree
  | .precise e width precision => e.setFree && width.setFree && precision.setFree

def argumentsSetFree : List Argument → Bool
  | [] => true
  | a :: arguments => a.setFree && argumentsSetFree arguments

def exprsSetFree : List Expr → Bool
  | [] => true
  | e :: es => e.setFree && exprsSetFree es

end

mutual

@[simp] def Stmt.setFree : Stmt → Bool
  | .compound body => stmtsSetFree body
  | .assign target value => target.setFree && value.setFree
  | .ifThen c thenBranch => c.setFree && thenBranch.setFree
  | .ifThenElse c thenBranch elseBranch => c.setFree && thenBranch.setFree && elseBranch.setFree
  | .whileDo c body => c.setFree && body.setFree
  | .forDo _ initial _ final body => initial.setFree && final.setFree && body.setFree
  | .call _ arguments => argumentsSetFree arguments

def stmtsSetFree : List Stmt → Bool
  | [] => true
  | s :: ss => s.setFree && stmtsSetFree ss

end

def TypeDenoter.setFree : TypeDenoter → Bool
  | .array low high element => low.setFree && high.setFree && element.setFree
  | _ => true

def VarDecl.setFree (v : VarDecl) : Bool := v.type.setFree

mutual

def ParameterSection.setFree : ParameterSection → Bool
  | .value _ type => type.setFree
  | .reference _ type => type.setFree
  | .function _ parameters result => sectionsSetFree parameters && result.setFree

def sectionsSetFree : List ParameterSection → Bool
  | [] => true
  | p :: ps => p.setFree && sectionsSetFree ps

end

def Heading.setFree (h : Heading) : Bool := sectionsSetFree h.parameters && h.result.setFree

mutual

def Block.setFree : Block → Bool
  | .mk functions declarations statements =>
    functionsSetFree functions && declarations.all VarDecl.setFree && stmtsSetFree statements

def FunctionDecl.setFree : FunctionDecl → Bool
  | .definition heading block => heading.setFree && block.setFree
  | .directive heading _ => heading.setFree
  | .body _ block => block.setFree

def functionsSetFree : List FunctionDecl → Bool
  | [] => true
  | f :: fs => f.setFree && functionsSetFree fs

end

/-- A program whose tree has no set constructor. -/
def Program.setFree (p : Program) : Bool := p.block.setFree

theorem Argument.expr_setFree {a : Argument} (h : a.setFree = true) : a.expr.setFree = true := by
  cases a with
  | value e => rwa [Argument.setFree] at h
  | wide e w =>
    rw [Argument.setFree, Bool.and_eq_true] at h
    exact h.1
  | precise e w p =>
    rw [Argument.setFree, Bool.and_eq_true, Bool.and_eq_true] at h
    exact h.1.1

theorem Block.statements_setFree {b : Block} (h : b.setFree = true) :
    stmtsSetFree b.statements = true := by
  obtain ⟨fs, vs, ss⟩ := b
  rw [Block.setFree, Bool.and_eq_true] at h
  exact h.2

theorem Block.functions_setFree {b : Block} (h : b.setFree = true) :
    functionsSetFree b.functions = true := by
  obtain ⟨fs, vs, ss⟩ := b
  rw [Block.setFree, Bool.and_eq_true, Bool.and_eq_true] at h
  exact h.1.1

def FunctionDecl.block? : FunctionDecl → Option Block
  | .definition _ block => some block
  | .directive _ _ => none
  | .body _ block => some block

theorem functionsSetFree_block {fs : List FunctionDecl} (h : functionsSetFree fs = true) :
    ∀ f ∈ fs, ∀ {b : Block}, f.block? = some b → b.setFree = true := by
  induction fs with
  | nil => nofun
  | cons g fs ih =>
    rw [functionsSetFree, Bool.and_eq_true] at h
    intro f hf b hb
    rcases List.mem_cons.mp hf with rfl | hf
    · cases f with
      | definition heading block =>
        cases hb
        rw [FunctionDecl.setFree, Bool.and_eq_true] at h
        exact h.1.2
      | directive heading directive => cases hb
      | body name block =>
        cases hb
        rw [FunctionDecl.setFree] at h
        exact h.1
    · exact ih h.2 f hf hb

/-! ## expressions -/

/-- A value of one type can be kept in a place of another, after a conversion. -/
inductive Assignable : (target value : DataType) → Option Conversion → Prop
  | same {t : DataType} : t ≠ .array → Assignable t t none
  | widen : Assignable .real .integer (some .itof)
  | narrow : Assignable .integer .real (some .ftoi)

theorem Assignable.of_assignConversion {t u : DataType} {place : Place} {c : Option Conversion}
    (h : assignConversion t u place = .ok c) : Assignable t u c := by
  unfold assignConversion at h
  split at h
  · rename_i hsame
    cases h
    rw [← hsame.1]
    exact .same hsame.2
  · split at h
    · cases h; exact .widen
    · cases h; exact .narrow
    · cases h

theorem Assignable.conversionTo {t u : DataType} {c : Option Conversion} (h : Assignable t u c) :
    conversionTo t u = c := by
  cases h with
  | same _ => cases t <;> rfl
  | widen => rfl
  | narrow => rfl

structure Scopes.Callable (S : Scopes) (name : String) (f : Signature) : Prop where
  function : S.function? name = some f
  called : f.called = true
  internal : f.directive ≠ some .external

/-- The instructions from the value of an index to the slot of an element. -/
def addressCode (v : Variable) : List Line :=
  emit [.pushi v.low, .basic (.arith .sub), .pushi (Int64.ofNat v.slot), .basic (.arith .add)]

/-- The instructions from a text and a position to a character. -/
def characterCode : List Line := emit [.pushi 1, .basic (.arith .sub), .basic .charat]

section
variable (S : Scopes)

mutual

inductive ExprCode : Expr → List Line → Prop
  | access {a : Access} {code : List Line} : AccessCode a code → ExprCode (.access a) code
  | builtin {name : String} {arguments : List Argument} {b : Builtin} {code : List Line} :
      Builtin.ofName? name = some b → b.isFunction = true →
      ArgumentsCode b.parameters arguments code →
      ExprCode (.call name arguments) (code ++ emitBasic b.epilogue)
  | call {name : String} {arguments : List Argument} {f : Signature} {code : List Line} :
      Builtin.ofName? name = none → S.Callable name f →
      ArgumentsCode f.parameters arguments code →
      ExprCode (.call name arguments) (code ++ callCode f.label)
  | binary {op : BinaryOp} {left right : Expr} {lt rt : DataType} {a : Arithmetic}
      {leftCode rightCode : List Line} :
      S.infer left = .ok lt → S.infer right = .ok rt → operandArithmetic op lt rt = .ok a →
      ExprCode left leftCode → ExprCode right rightCode →
      ExprCode (.binary op left right)
        (leftCode ++ emitConversion (a.conversion lt) ++ rightCode
          ++ emitConversion (a.conversion rt) ++ emitBasic (op.code a))
  | signed {sign : Sign} {operand : Expr} {t : DataType} {code : List Line} :
      S.infer operand = .ok t → t.isNumeric = true → ExprCode operand code →
      ExprCode (.signed sign operand) (code ++ emit (sign.code t))
  | unit {base exponent : Expr} {t : DataType} :
      exponentOf exponent = .ok 0 → S.infer base = .ok t → t.isNumeric = true →
      ExprCode (.power base exponent) (powerCode t [] 0)
  | power {base exponent : Expr} {n : Nat} {t : DataType} {code : List Line} :
      exponentOf exponent = .ok (n + 1) → S.infer base = .ok t → t.isNumeric = true →
      ExprCode base code → ExprCode (.power base exponent) (powerCode t code (n + 1))
  | not {operand : Expr} {t : DataType} {code : List Line} :
      S.infer operand = .ok t → (t = .boolean ∨ t = .integer) → ExprCode operand code →
      ExprCode (.not operand) (code ++ emitBasic [.not])
  | constant {c : Constant} : ExprCode (.constant c) (emit [c.push])
  | set {members : List Member} {code : List Line} :
      MembersCode members code → ExprCode (.set members) code

inductive AccessCode : Access → List Line → Prop
  | truth {id : String} {b : Bool} : truthName? id = some b →
      AccessCode (.name id) (emit [.pushi (if b then 1 else 0)])
  | plain {id : String} {v : Variable} : truthName? id = none → S.resolve? id = some v →
      v.type ≠ .array → AccessCode (.name id) (emit [.pushg (some v.slot)])
  | function {id : String} {f : Signature} : truthName? id = none → S.resolve? id = none →
      S.Callable id f → f.parameters = [] → AccessCode (.name id) (callCode f.label)
  | element {id : String} {v : Variable} {i : Expr} {code : List Line} :
      S.resolve? id = some v → v.type = .array → S.infer i = .ok .integer → ExprCode i code →
      AccessCode (.index (.name id) [i]) (code ++ addressCode v ++ emit [.pushg none])
  | character {id : String} {v : Variable} {i : Expr} {code : List Line} :
      S.resolve? id = some v → v.type = .string → S.infer i = .ok .integer → ExprCode i code →
      AccessCode (.index (.name id) [i]) (emit [.pushg (some v.slot)] ++ code ++ characterCode)

inductive ArgumentsCode : List DataType → List Argument → List Line → Prop
  | nil : ArgumentsCode [] [] []
  | cons {t u : DataType} {ts : List DataType} {e : Expr} {arguments : List Argument}
      {c : Option Conversion} {code rest : List Line} :
      S.infer e = .ok u → Assignable t u c → ExprCode e code → ArgumentsCode ts arguments rest →
      ArgumentsCode (t :: ts) (.value e :: arguments) (code ++ emitConversion c ++ rest)

inductive MembersCode : List Member → List Line → Prop
  | nil : MembersCode [] []
  | single {e : Expr} {members : List Member} {code rest : List Line} :
      ExprCode e code → MembersCode members rest → MembersCode (.single e :: members) (code ++ rest)
  | range {low high : Expr} {members : List Member} {lowCode highCode rest : List Line} :
      ExprCode low lowCode → ExprCode high highCode → MembersCode members rest →
      MembersCode (.range low high :: members) (lowCode ++ highCode ++ rest)

end

end

/-! ## slots -/

def Line.slot? : Line → Option Nat
  | .op (.pushg slot) | .op (.storeg slot) => slot
  | _ => none

def slotsOf (code : List Line) : List Nat := code.filterMap Line.slot?

theorem slotsOf_append (a b : List Line) : slotsOf (a ++ b) = slotsOf a ++ slotsOf b :=
  List.filterMap_append ..

theorem slotsOf_stores (slots : List Nat) :
    slotsOf (emit (slots.map fun slot => .storeg (some slot))) = slots := by
  induction slots with
  | nil => rfl
  | cons slot slots ih => exact congrArg (slot :: ·) ih

/-! ## statements -/

/-- The numbers of the next labels. -/
structure Counters where
  ifs : Nat
  whiles : Nat
  fors : Nat

/-- The slot and type of a name on the left of an assignment. -/
inductive Context.Targets (x : Context) (id : String) : Nat → DataType → Prop
  | result {a : Activation} : x.activation = some a → foldAscii a.name = foldAscii id →
      Targets x id a.slot a.result
  | declared {v : Variable} :
      (∀ a, x.activation = some a → foldAscii a.name ≠ foldAscii id) →
      x.scopes.resolve? id = some v → Targets x id v.slot v.type

theorem Context.Targets.target {x : Context} {id : String} {slot : Nat} {t : DataType}
    (h : x.Targets id slot t) : x.target id = (slot, t) := by
  cases h with
  | result ha hname =>
    unfold Context.target
    simp only [ha, hname, if_true]
  | declared hown hr =>
    unfold Context.target
    cases ha : x.activation with
    | none => simp only [hr, Option.map_some, Option.getD_some]
    | some a => simp only [hown a ha, if_false, hr, Option.map_some, Option.getD_some]

def Scopes.IsCondition (S : Scopes) (e : Expr) : Prop :=
  ∃ t, S.infer e = .ok t ∧ (t = .boolean ∨ t = .integer)

section
variable (x : Context)

inductive WritesCode : List Argument → List Line → Prop
  | nil : WritesCode [] []
  | cons {a : Argument} {arguments : List Argument} {t : DataType} {write : Basic}
      {code rest : List Line} :
      x.scopes.infer a.expr = .ok t → t.write? = some write → ExprCode x.scopes a.expr code →
      WritesCode arguments rest → WritesCode (a :: arguments) (code ++ emitBasic [write] ++ rest)

inductive ReadCode : Access → List Line → Prop
  | name {id : String} {slot : Nat} {t : DataType} {ops : List (Op String)} :
      x.Targets id slot t → t.read? = some ops →
      ReadCode (.name id) (emitBasic [.read] ++ emit ops ++ emit [.storeg (some slot)])
  | element {id : String} {v : Variable} {ops : List (Op String)} {i : Expr} {code : List Line} :
      x.scopes.resolve? id = some v → v.type = .array → v.element.read? = some ops →
      x.scopes.infer i = .ok .integer → ExprCode x.scopes i code →
      ReadCode (.index (.name id) [i])
        (emitBasic [.read] ++ emit ops ++ (code ++ addressCode v) ++ emit [.storeg none])

inductive AssignCode : Access → Expr → List Line → Prop
  | name {id : String} {value : Expr} {slot : Nat} {t u : DataType} {c : Option Conversion}
      {code : List Line} :
      x.scopes.infer value = .ok u → ExprCode x.scopes value code → x.Targets id slot t →
      Assignable t u c →
      AssignCode (.name id) value (code ++ emitConversion c ++ emit [.storeg (some slot)])
  | element {id : String} {v : Variable} {i value : Expr} {u : DataType} {c : Option Conversion}
      {code indexCode : List Line} :
      x.scopes.infer value = .ok u → ExprCode x.scopes value code →
      x.scopes.resolve? id = some v → v.type = .array → Assignable v.element u c →
      x.scopes.infer i = .ok .integer → ExprCode x.scopes i indexCode →
      AssignCode (.index (.name id) [i]) value
        (code ++ emitConversion c ++ (indexCode ++ addressCode v) ++ emit [.storeg none])

inductive CallCode : String → List Argument → List Line → Prop
  | write {name : String} {arguments : List Argument} {b : Builtin} {code : List Line} :
      Builtin.ofName? name = some b → (b = .write ∨ b = .writeln) → WritesCode x arguments code →
      CallCode name arguments (code ++ emitBasic b.epilogue)
  | skip {name : String} {b : Builtin} :
      Builtin.ofName? name = some b → (b = .read ∨ b = .readln) →
      CallCode name [] (emitBasic [.read] ++ emit [.pop 1])
  | read {name : String} {target : Access} {arguments : List Argument} {b : Builtin}
      {code : List Line} :
      Builtin.ofName? name = some b → (b = .read ∨ b = .readln) → ReadCode x target code →
      CallCode name (.value (.access target) :: arguments) code
  | function {name : String} {arguments : List Argument} {code : List Line} :
      (∀ b, Builtin.ofName? name = some b → b.isFunction = true) →
      ExprCode x.scopes (.call name arguments) code →
      CallCode name arguments (code ++ emit [.pop 1])

mutual

/-- The code of a statement; the labels in it have numbers from `k` up to `k'`. -/
inductive StmtCode : (k : Counters) → Stmt → List Line → (k' : Counters) → Prop
  | compound {k k' : Counters} {body : List Stmt} {code : List Line} :
      StmtsCode k body code k' → StmtCode k (.compound body) code k'
  | assign {k : Counters} {target : Access} {value : Expr} {code : List Line} :
      AssignCode x target value code → StmtCode k (.assign target value) code k
  | ifThen {k k' : Counters} {c : Expr} {thenBranch : Stmt} {condition thenCode : List Line} :
      x.scopes.IsCondition c → ExprCode x.scopes c condition →
      StmtCode { k with ifs := k.ifs + 1 } thenBranch thenCode k' →
      StmtCode k (.ifThen c thenBranch) (ifCode k.ifs condition thenCode) k'
  | ifThenElse {k k₁ k' : Counters} {c : Expr} {thenBranch elseBranch : Stmt}
      {condition thenCode elseCode : List Line} :
      x.scopes.IsCondition c → ExprCode x.scopes c condition →
      StmtCode { k with ifs := k.ifs + 1 } thenBranch thenCode k₁ →
      StmtCode k₁ elseBranch elseCode k' →
      StmtCode k (.ifThenElse c thenBranch elseBranch)
        (ifElseCode k.ifs condition thenCode elseCode) k'
  | whileDo {k k' : Counters} {c : Expr} {body : Stmt} {condition bodyCode : List Line} :
      x.scopes.IsCondition c → ExprCode x.scopes c condition →
      StmtCode { k with whiles := k.whiles + 1 } body bodyCode k' →
      StmtCode k (.whileDo c body) (whileCode k.whiles condition bodyCode) k'
  | forDo {k k' : Counters} {control : String} {v : Variable} {initial final : Expr}
      {direction : Direction} {body : Stmt} {initialCode finalCode bodyCode : List Line} :
      x.scopes.resolve? control = some v → v.type = .integer →
      x.scopes.infer initial = .ok .integer → x.scopes.infer final = .ok .integer →
      ExprCode x.scopes initial initialCode → ExprCode x.scopes final finalCode →
      StmtCode { k with fors := k.fors + 1 } body bodyCode k' →
      StmtCode k (.forDo control initial direction final body)
        (forCode k.fors v.slot direction initialCode finalCode bodyCode) k'
  | call {k : Counters} {name : String} {arguments : List Argument} {code : List Line} :
      CallCode x name arguments code → StmtCode k (.call name arguments) code k

inductive StmtsCode : (k : Counters) → List Stmt → List Line → (k' : Counters) → Prop
  | nil {k : Counters} : StmtsCode k [] [] k
  | cons {k k₁ k' : Counters} {s : Stmt} {ss : List Stmt} {code rest : List Line} :
      StmtCode k s code k₁ → StmtsCode k₁ ss rest k' → StmtsCode k (s :: ss) (code ++ rest) k'

end

end

end PascalStack
