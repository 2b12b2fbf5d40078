import PascalStack.Proofs.Simulation.Literals

/-!
# Values of types

* `DataType.Holds`       the values of a type;
* `Fault.Expected`       the faults that a run may end in although all its values have their types;
* `Safely`               a computation gives a value of a kind or stops with such a fault;
* `arith_holds`, `charat_holds`, ...   instructions on values of their types;
* `BinaryOp.apply_holds`   an operator gives a value of the type that is inferred for it.
-/

namespace PascalStack

/-- The values of a type.  A character is kept as its code, and a real number may be an integer. -/
inductive DataType.Holds : DataType → Value → Prop
  | integer (n : Int64) : Holds .integer (.integer n)
  | boolean (n : Int64) : Holds .boolean (.integer n)
  | char (c : Char) : Holds .char (.integer (Int64.ofNat c.toNat))
  | real (x : Float) : Holds .real (.real x)
  | whole (n : Int64) : Holds .real (.integer n)
  | string (s : String) : Holds .string (.string s)

/-- The faults that do not come from values of a wrong type: a text that is no number, a division, a
position in a text, the limit of steps and the input. -/
inductive Fault.Expected : Fault → Prop
  | notInteger {text : String} : signed? (Text.trim text.toList) = none →
      Expected (.typeError "atoi" (.notInteger text))
  | notReal {text : String} : Double.read? (Text.trim text.toList) = none →
      Expected (.typeError "atof" (.notReal text))
  | divisionByZero : Expected .divisionByZero
  | stringIndex (index : Int64) (length : Nat) : Expected (.stringIndex index length)
  | stepLimit (limit : Nat) : Expected (.stepLimit limit)
  | unreadableInput : Expected .unreadableInput

/-- A result of a kind, or a fault that is expected. -/
def Safely {α : Type} (P : α → Prop) : Except Fault α → Prop
  | .ok a => P a
  | .error f => f.Expected

section
variable {α β : Type} {P : α → Prop} {Q : β → Prop} {e : Except Fault α}

theorem Safely.bind {f : α → Except Fault β} (h : Safely P e) (hf : ∀ a, P a → Safely Q (f a)) :
    Safely Q (e >>= f) := by
  cases e with
  | ok a => exact hf a h
  | error fault => exact h

theorem Safely.mono {P' : α → Prop} (h : Safely P e) (hP : ∀ a, P a → P' a) : Safely P' e := by
  cases e with
  | ok a => exact hP a h
  | error fault => exact h

end

/-! ## values as numbers and texts -/

section
variable {v l r : Value} {t lt rt : DataType}

def DataType.isWhole : DataType → Bool
  | .integer | .boolean | .char => true
  | _ => false

theorem DataType.Holds.toInteger (h : t.Holds v) (ht : t.isWhole = true) (name : String) :
    ∃ n, v.toInteger name = .ok n := by
  cases h with
  | integer n | boolean n => exact ⟨n, rfl⟩
  | char c => exact ⟨_, rfl⟩
  | _ => cases ht

theorem DataType.Holds.toReal (h : t.Holds v) (ht : t.isNumeric = true) (name : String) :
    ∃ x, v.toReal name = .ok x := by
  cases h with
  | integer n | whole n => exact ⟨_, rfl⟩
  | real x => exact ⟨x, rfl⟩
  | _ => cases ht

theorem DataType.Holds.toText (h : DataType.string.Holds v) (name : String) : ∃ s, v.toText name = .ok s := by
  cases h with
  | string s => exact ⟨s, rfl⟩

/-- Zero is a value of every type but the texts. -/
theorem DataType.holds_zero (h : t ≠ .string) (h' : t ≠ .array) : t.Holds .zero := by
  cases t with
  | integer => exact .integer 0
  | boolean => exact .boolean 0
  | real => exact .whole 0
  | char => exact .char (Char.ofNat 0)
  | string => exact absurd rfl h
  | array => exact absurd rfl h'

theorem holds_ofBool (b : Bool) : DataType.boolean.Holds (.ofBool b) := .boolean _

/-! ## instructions -/

theorem arith_holds (o : Arith) (hl : lt.Holds l) (hr : rt.Holds r) (hlt : lt.isWhole = true)
    (hrt : rt.isWhole = true) : Safely DataType.integer.Holds ((Basic.arith o).binary l r) := by
  obtain ⟨y, hy⟩ := hr.toInteger hrt (Basic.arith o).name
  obtain ⟨x, hx⟩ := hl.toInteger hlt (Basic.arith o).name
  have heq : (Basic.arith o).binary l r = (o.eval x y >>= fun z => .ok (.integer z)) := by
    rw [Basic.binary, hy, hx]
    rfl
  rw [heq]
  refine Safely.bind (P := fun _ => True) ?_ fun z _ => .integer z
  cases o with
  | div =>
    rw [Arith.eval]
    split
    · exact .divisionByZero
    · trivial
  | mod =>
    rw [Arith.eval]
    split
    · exact .divisionByZero
    · trivial
  | _ => trivial

theorem realArith_holds (o : RealArith) (hl : lt.Holds l) (hr : rt.Holds r) (hlt : lt.isNumeric = true)
    (hrt : rt.isNumeric = true) : Safely DataType.real.Holds ((Basic.realArith o).binary l r) := by
  obtain ⟨y, hy⟩ := hr.toReal hrt (Basic.realArith o).name
  obtain ⟨x, hx⟩ := hl.toReal hlt (Basic.realArith o).name
  have heq : (Basic.realArith o).binary l r = (o.eval x y >>= fun z => .ok (.real z)) := by
    rw [Basic.binary, hy, hx]
    rfl
  rw [heq]
  refine Safely.bind (P := fun _ => True) ?_ fun z _ => .real z
  cases o with
  | div =>
    rw [RealArith.eval]
    split
    · exact .divisionByZero
    · trivial
  | _ => trivial

theorem order_holds (o : Order) (hl : lt.Holds l) (hr : rt.Holds r) (hlt : lt.isWhole = true)
    (hrt : rt.isWhole = true) : Safely DataType.boolean.Holds ((Basic.order o).binary l r) := by
  obtain ⟨y, hy⟩ := hr.toInteger hrt (Basic.order o).name
  obtain ⟨x, hx⟩ := hl.toInteger hlt (Basic.order o).name
  rw [Basic.binary, hy, hx]
  exact holds_ofBool _

theorem realOrder_holds (o : Order) (hl : lt.Holds l) (hr : rt.Holds r) (hlt : lt.isNumeric = true)
    (hrt : rt.isNumeric = true) : Safely DataType.boolean.Holds ((Basic.realOrder o).binary l r) := by
  obtain ⟨y, hy⟩ := hr.toReal hrt (Basic.realOrder o).name
  obtain ⟨x, hx⟩ := hl.toReal hlt (Basic.realOrder o).name
  rw [Basic.binary, hy, hx]
  exact holds_ofBool _

theorem charat_holds (hl : DataType.string.Holds l) (hr : DataType.integer.Holds r) :
    Safely DataType.char.Holds (Basic.charat.binary l r) := by
  cases hl with
  | string s =>
    cases hr with
    | integer n =>
      simp only [Basic.binary, Value.toInteger, Value.toText, bind, Except.bind]
      cases charAt? s n with
      | some c => exact .char c
      | none => exact .stringIndex _ _

theorem itof_holds (h : t.Holds v) (ht : t.isNumeric = true) :
    Safely DataType.real.Holds (Basic.itof.unary v) := by
  obtain ⟨x, hx⟩ := h.toReal ht Basic.itof.name
  rw [Basic.unary, hx]
  exact .real x

theorem ftoi_holds (h : t.Holds v) (ht : t.isNumeric = true) :
    Safely DataType.integer.Holds (Basic.ftoi.unary v) := by
  obtain ⟨x, hx⟩ := h.toReal ht Basic.ftoi.name
  rw [Basic.unary, hx]
  exact .integer _

theorem strlen_holds (h : DataType.string.Holds v) : Safely DataType.integer.Holds (Basic.strlen.unary v) := by
  obtain ⟨s, hs⟩ := h.toText Basic.strlen.name
  rw [Basic.unary, hs]
  exact .integer _

theorem atoi_holds (h : DataType.string.Holds v) : Safely (∃ n, · = Value.integer n) (Basic.atoi.unary v) := by
  cases h with
  | string s =>
    simp only [Basic.unary, Value.toText, bind, Except.bind]
    cases hs : signed? (Text.trim s.toList) with
    | some n => exact ⟨n, rfl⟩
    | none => exact .notInteger hs

theorem atof_holds (h : DataType.string.Holds v) : Safely DataType.real.Holds (Basic.atof.unary v) := by
  cases h with
  | string s =>
    simp only [Basic.unary, Value.toText, bind, Except.bind]
    cases hs : Double.read? (Text.trim s.toList) with
    | some x => exact .real x
    | none => exact .notReal hs

/-- A value is written by the instruction for its type. -/
theorem written_holds {b : Basic} (h : t.Holds v) (hb : t.write? = some b) :
    Safely (fun _ => True) (b.written v) := by
  cases h with
  | char c =>
    cases hb
    rw [written_character]
    trivial
  | _ =>
    cases hb
    trivial

/-! ## conversions and operators -/

/-- The type of an operand after its conversion. -/
def Arithmetic.operandType : Arithmetic → DataType → DataType
  | .real, .integer => .real
  | _, t => t

/-- The arithmetic of two numbers, and what becomes of their types. -/
theorem numericArithmetic_cases {place : Place} {a : Arithmetic} (h : numericArithmetic lt rt place = .ok a) :
    (a = .integer ∧ lt = .integer ∧ rt = .integer) ∨
      (a = .real ∧ a.operandType lt = .real ∧ a.operandType rt = .real ∧ widerType lt rt = .real) := by
  cases lt <;> cases rt <;> cases h <;> first
    | exact .inl ⟨rfl, rfl, rfl⟩
    | exact .inr ⟨rfl, rfl, rfl, rfl⟩

theorem calculate_holds (o : Arith) (p : RealArith) {place : Place} {a : Arithmetic}
    (h : numericArithmetic lt rt place = .ok a) (hl : (a.operandType lt).Holds l)
    (hr : (a.operandType rt).Holds r) : Safely (widerType lt rt).Holds (calculate o p a l r) := by
  rcases numericArithmetic_cases h with ⟨rfl, rfl, rfl⟩ | ⟨rfl, hlt, hrt, hwide⟩
  · exact arith_holds o hl hr rfl rfl
  · rw [hwide]
    rw [hlt] at hl
    rw [hrt] at hr
    exact realArith_holds p hl hr rfl rfl

theorem compare_holds (o : Order) {place : Place} {a : Arithmetic}
    (h : numericArithmetic lt rt place = .ok a) (hl : (a.operandType lt).Holds l)
    (hr : (a.operandType rt).Holds r) : Safely DataType.boolean.Holds (compare o a l r) := by
  rcases numericArithmetic_cases h with ⟨rfl, rfl, rfl⟩ | ⟨rfl, hlt, hrt, -⟩
  · exact order_holds o hl hr rfl rfl
  · rw [hlt] at hl
    rw [hrt] at hr
    exact realOrder_holds o hl hr rfl rfl

/-- Characters are compared by their codes, numbers as numbers. -/
theorem ordering_holds (o : Order) {place : Place} {a : Arithmetic}
    (h : (if lt = .char ∧ rt = .char then .ok .integer else numericArithmetic lt rt place) = .ok a)
    (hl : (a.operandType lt).Holds l) (hr : (a.operandType rt).Holds r) :
    Safely DataType.boolean.Holds (compare o a l r) := by
  split at h
  · rename_i hchar
    obtain ⟨rfl, rfl⟩ := hchar
    cases h
    exact order_holds o hl hr rfl rfl
  · exact compare_holds o h hl hr

theorem whole_holds (o : Arith) {place : Place} {a : Arithmetic}
    (h : (do expectType .integer lt place; expectType .integer rt place; return .integer) = Except.ok a)
    (hl : (a.operandType lt).Holds l) (hr : (a.operandType rt).Holds r) :
    a = .integer ∧ Safely (widerType lt rt).Holds ((Basic.arith o).binary l r) := by
  cases lt <;> cases rt <;> cases h
  exact ⟨rfl, arith_holds o hl hr rfl rfl⟩

def BinaryOp.resultType (op : BinaryOp) (left right : DataType) : DataType :=
  if op.isRelational || op.isLogical then .boolean else widerType left right

/-- **An operator gives a value of the type that is inferred for it**, if its operands were checked and
converted. -/
theorem BinaryOp.apply_holds {op : BinaryOp} {a : Arithmetic} (h : operandArithmetic op lt rt = .ok a)
    (hl : (a.operandType lt).Holds l) (hr : (a.operandType rt).Holds r) :
    Safely (op.resultType lt rt).Holds (op.apply a l r) := by
  cases op with
  | add => exact calculate_holds .add .add h hl hr
  | subtract => exact calculate_holds .sub .sub h hl hr
  | multiply => exact calculate_holds .mul .mul h hl hr
  | divide => exact calculate_holds .div .div h hl hr
  | integerDivide =>
    obtain ⟨rfl, hsafe⟩ := whole_holds .div h hl hr
    exact hsafe
  | modulo => exact (whole_holds .mod h hl hr).2
  | less => exact ordering_holds .less h hl hr
  | lessEqual => exact ordering_holds .lessEqual h hl hr
  | greater => exact ordering_holds .greater h hl hr
  | greaterEqual => exact ordering_holds .greaterEqual h hl hr
  | equal | notEqual | and | or => exact holds_ofBool _
  | member => cases h

/-- The product of two numbers of a type. -/
theorem multiplyOf_holds (ht : t.isNumeric = true) (hl : t.Holds l) (hr : t.Holds r) :
    Safely t.Holds ((multiplyOf t).binary l r) := by
  cases t with
  | integer => exact arith_holds .mul hl hr rfl rfl
  | real => exact realArith_holds .mul hl hr rfl rfl
  | _ => cases ht

end

end PascalStack
