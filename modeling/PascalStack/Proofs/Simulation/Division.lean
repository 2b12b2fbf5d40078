import PascalStack.Proofs.Compiler.Inversion
import PascalStack.Proofs.Machine.Frames
import PascalStack.Proofs.Machine.Placed
import PascalStack.Proofs.Simulation.Activations
import PascalStack.Proofs.Simulation.Literals

/-!
# Integer division

* `BinaryOp.divided?`    the quotient or the remainder that an operator is for;
* `overflows_eq_true`    the operands for which the machine refuses to divide;
* `tdiv_mul_add_tmod`    quotient and remainder belong together, also when they are reduced to words;
* `division_runs`        what the code of a division does.

The least machine integer has no quotient by `-1` among the machine integers, and the machine takes this
for a division by zero, `overflowSource_fails`.
-/

namespace PascalStack

open Exec Compile

/-- What an operator that divides integers computes, before it is reduced to a machine integer: the
quotient, rounded toward zero, or the remainder that goes with it. -/
def BinaryOp.divided? : BinaryOp → Option (Int → Int → Int)
  | .divide | .integerDivide => some Int.tdiv
  | .modulo => some Int.tmod
  | _ => none

/-- The operands that the machine refuses. -/
theorem Arith.overflows_eq_true {a b : Int64} :
    Arith.eval.overflows a b = true ↔ b = 0 ∨ a = Int64.minValue ∧ b = -1 := by
  unfold Arith.eval.overflows
  rw [Bool.or_eq_true, Bool.and_eq_true, decide_eq_true_eq, decide_eq_true_eq, decide_eq_true_eq]

theorem div_eq_ofInt (a b : Int64) : a / b = Int64.ofInt (a.toInt.tdiv b.toInt) := by
  rw [← Int64.toInt_inj, Int64.toInt_div, Int64.toInt_ofInt]

theorem mod_eq_ofInt (a b : Int64) : a % b = Int64.ofInt (a.toInt.tmod b.toInt) := by
  rw [← Int64.toInt_mod, Int64.ofInt_toInt]

/-- Quotient and remainder make up the dividend. -/
theorem tdiv_mul_add_tmod (a b : Int64) :
    Int64.ofInt (a.toInt.tdiv b.toInt) * b + Int64.ofInt (a.toInt.tmod b.toInt) = a := by
  calc Int64.ofInt (a.toInt.tdiv b.toInt) * b + Int64.ofInt (a.toInt.tmod b.toInt)
      = Int64.ofInt (a.toInt.tdiv b.toInt) * Int64.ofInt b.toInt + Int64.ofInt (a.toInt.tmod b.toInt) := by
        rw [Int64.ofInt_toInt]
    _ = Int64.ofInt (a.toInt.tdiv b.toInt * b.toInt + a.toInt.tmod b.toInt) := by
        rw [Int64.ofInt_add, Int64.ofInt_mul]
    _ = Int64.ofInt a.toInt := by rw [Int.tdiv_mul_add_tmod]
    _ = a := Int64.ofInt_toInt a

/-- What the division of machine integers gives, with the instruction for it. -/
theorem BinaryOp.divided?_eval {op : BinaryOp} {f : Int → Int → Int} (h : op.divided? = some f) :
    ∃ o, op.code .integer = [.arith o] ∧ ∀ a b, o.eval a b =
      if b = 0 ∨ a = Int64.minValue ∧ b = -1 then .error .divisionByZero
      else .ok (Int64.ofInt (f a.toInt b.toInt)) := by
  have hdiv : ∀ a b, Arith.div.eval a b = if b = 0 ∨ a = Int64.minValue ∧ b = -1 then
      .error .divisionByZero else .ok (Int64.ofInt (a.toInt.tdiv b.toInt)) := by
    intro a b
    rw [Arith.eval, div_eq_ofInt]
    simp only [Arith.overflows_eq_true]
  have hmod : ∀ a b, Arith.mod.eval a b = if b = 0 ∨ a = Int64.minValue ∧ b = -1 then
      .error .divisionByZero else .ok (Int64.ofInt (a.toInt.tmod b.toInt)) := by
    intro a b
    rw [Arith.eval, mod_eq_ofInt]
    simp only [Arith.overflows_eq_true]
  cases op with
  | divide | integerDivide =>
    cases h
    exact ⟨.div, rfl, hdiv⟩
  | modulo =>
    cases h
    exact ⟨.mod, rfl, hmod⟩
  | _ => cases h

/-- Operators that divide take integers as they are. -/
theorem BinaryOp.divided?_arithmetic {op : BinaryOp} {f : Int → Int → Int} (h : op.divided? = some f) :
    operandArithmetic op .integer .integer = .ok .integer := by
  cases op with
  | divide | integerDivide | modulo => rfl
  | _ => cases h

/-- The code of a division of integers: that of the operands, and one instruction. -/
theorem division_code {op : BinaryOp} {f : Int → Int → Int} {left right : Expr} {c d : Compiler}
    {lines : List Line} (hop : op.divided? = some f) (hleft : c.scopes.infer left = .ok .integer)
    (hright : c.scopes.infer right = .ok .integer)
    (h : (Expr.binary op left right).compile c = .ok lines d) :
    ∃ leftCode rightCode c₁, left.compile c = .ok leftCode c₁ ∧ right.compile c₁ = .ok rightCode d ∧
      lines = leftCode ++ rightCode ++ emitBasic (op.code .integer) := by
  rw [Expr.compile] at h
  simp only [bind_eq_ok, typeOf_eq_ok, check_eq_ok, pure_eq_ok] at h
  obtain ⟨_, _, ⟨hl, rfl⟩, _, _, ⟨hr, rfl⟩, _, _, ⟨ha, rfl⟩, leftCode, c₁, hlc, rightCode, _, hrc, rfl, rfl⟩ := h
  cases hleft.symm.trans hl
  cases hright.symm.trans hr
  cases (BinaryOp.divided?_arithmetic hop).symm.trans ha
  refine ⟨leftCode, rightCode, c₁, hlc, hrc, ?_⟩
  simp only [Arithmetic.conversion, emitConversion, Option.toList_none, List.map_nil, emit, List.append_nil]

section
variable {o : Arith} {p : Nat} {u : State} {a b n : Int64} {rest : List Value}

/-- An instruction with both operands on the stack. -/
theorem exec_arith_ok (hu : u.stack = .integer b :: .integer a :: rest) (h : o.eval a b = .ok n) :
    (Op.basic (.arith o)).exec p u = .ok (.goto (p + 1)) { u with stack := .integer n :: rest } := by
  obtain ⟨stack, globals, calls, input, output⟩ := u
  cases hu
  show ((checked (o.eval a b) >>= fun n => push (.integer n)) >>= fun _ => pure (.goto (p + 1)) : Exec Flow)
    ⟨rest, globals, calls, input, output⟩ = _
  rw [h]
  rfl

theorem exec_arith_error {f : Fault} (hu : u.stack = .integer b :: .integer a :: rest)
    (h : o.eval a b = .error f) : (Op.basic (.arith o)).exec p u = .error f { u with stack := rest } := by
  obtain ⟨stack, globals, calls, input, output⟩ := u
  cases hu
  show ((checked (o.eval a b) >>= fun n => push (.integer n)) >>= fun _ => pure (.goto (p + 1)) : Exec Flow)
    ⟨rest, globals, calls, input, output⟩ = _
  rw [h]
  rfl

end

/-- **Integer division.**  Wherever the code of a division of integers is placed, and whatever state it is
run in: once the operands have left the integers `a` and `b` on the stack, the run stops with a division by
zero if `b` is zero, or if `a` is the least machine integer and `b` is `-1`, and goes on behind the code
otherwise, with the quotient rounded toward zero, or its remainder, in their place.  Quotient and remainder
make up the dividend. -/
theorem division_runs {op : BinaryOp} {f : Int → Int → Int} {left right : Expr} {c d : Compiler}
    {lines : List Line} (hop : op.divided? = some f) (hleft : c.scopes.infer left = .ok .integer)
    (hright : c.scopes.infer right = .ok .integer)
    (h : (Expr.binary op left right).compile c = .ok lines d) :
    ∃ leftCode rightCode c₁, left.compile c = .ok leftCode c₁ ∧ right.compile c₁ = .ok rightCode d ∧
      ∀ code targets p q, Placed code targets p lines q →
        ∃ m n, Placed code targets p leftCode m ∧ Placed code targets m rightCode n ∧
          ∀ s t u a b, Reaches code p s m t → t.stack = .integer a :: s.stack →
            Reaches code m t n u → u.stack = .integer b :: t.stack →
            (if b = 0 ∨ a = Int64.minValue ∧ b = -1 then
              ∃ k, runFrom code k p s = (.failed .divisionByZero, { u with stack := s.stack })
            else
              Reaches code p s q { u with stack := .integer (Int64.ofInt (f a.toInt b.toInt)) :: s.stack }) ∧
            Int64.ofInt (a.toInt.tdiv b.toInt) * b + Int64.ofInt (a.toInt.tmod b.toInt) = a := by
  obtain ⟨leftCode, rightCode, c₁, hlc, hrc, rfl⟩ := division_code hop hleft hright h
  obtain ⟨o, hcode, heval⟩ := BinaryOp.divided?_eval hop
  refine ⟨leftCode, rightCode, c₁, hlc, hrc, fun code targets p q hplaced => ?_⟩
  rw [hcode] at hplaced
  obtain ⟨n, hoperands, hlast⟩ := placed_append.mp hplaced
  obtain ⟨m, hl, hr⟩ := placed_append.mp hoperands
  obtain ⟨harith, rfl⟩ := Placed.basic hlast
  refine ⟨m, n, hl, hr, fun s t u a b hst hta htu hub => ⟨?_, tdiv_mul_add_tmod a b⟩⟩
  rw [hta] at hub
  by_cases hzero : b = 0 ∨ a = Int64.minValue ∧ b = -1
  · have hfails := exec_arith_error (p := n) hub ((heval a b).trans (if_pos hzero))
    obtain ⟨k, hk⟩ := (hst.trans htu).runFrom
    rw [if_pos hzero]
    refine ⟨k + 1, ?_⟩
    rw [hk 1]
    exact runFrom_of_step (step_of_error harith hfails) rfl
  · have hdivides := exec_arith_ok (p := n) hub ((heval a b).trans (if_neg hzero))
    rw [if_neg hzero]
    exact (hst.trans htu).trans (.cons (step_of_ok harith hdivides) .refl)

/-- The expression `-7 mod 2`. -/
def remainderExpr : Expr :=
  .binary .modulo (.signed .minus (.constant (.integer 7))) (.constant (.integer 2))

def remainderCode : Code :=
  #[.ok (.pushi 7), .ok (.pushi (-1)), .ok (.basic (.arith .mul)), .ok (.pushi 2), .ok (.basic (.arith .mod))]

/-- The remainder has the sign of the dividend. -/
theorem division_runs_remainder : ∃ lines, remainderExpr.compile .initial = .ok lines .initial ∧
    Placed remainderCode (fun _ => none) 0 lines 5 ∧
    Reaches remainderCode 0 (.initial []) 5 { State.initial [] with stack := [.integer (-1)] } := by
  have hcompile : remainderExpr.compile .initial = .ok (emit [.pushi 7, .pushi (-1), .basic (.arith .mul),
      .pushi 2, .basic (.arith .mod)]) .initial := rfl
  have hplaced : Placed remainderCode (fun _ => none) 0 (emit [.pushi 7, .pushi (-1), .basic (.arith .mul),
      .pushi 2, .basic (.arith .mod)]) 5 :=
    ⟨fun _ => ⟨_, rfl, rfl⟩, fun _ => ⟨_, rfl, rfl⟩, fun _ => ⟨_, rfl, rfl⟩, fun _ => ⟨_, rfl, rfl⟩,
      fun _ => ⟨_, rfl, rfl⟩, rfl⟩
  refine ⟨_, hcompile, hplaced, ?_⟩
  obtain ⟨_, _, _, hleft, hright, hall⟩ := division_runs (show BinaryOp.modulo.divided? = some Int.tmod from rfl) rfl rfl hcompile
  cases hleft
  cases hright
  obtain ⟨_, _, ⟨-, -, -, rfl⟩, ⟨-, rfl⟩, hruns⟩ := hall remainderCode (fun _ => none) 0 5 hplaced
  have hseven : Reaches remainderCode 0 (.initial []) 3 { State.initial [] with stack := [.integer (-7)] } :=
    .cons rfl (.cons rfl (.cons rfl .refl))
  exact (hruns _ _ _ (-7) 2 hseven rfl (.cons rfl .refl) rfl).1

/-- The quotient of the least machine integer by `-1`. -/
def overflowSource : String :=
  "program p; var a, b: integer; " ++
    "begin a := -9223372036854775807 - 1; b := -1; writeln(a div b) end."

/-- The quotient is no machine integer; it is not reduced to one, and the run stops. -/
theorem overflowSource_fails : ∃ code, compile overflowSource = .ok code ∧
    execute (codeText code) [] = .error .divisionByZero := by
  have hrun : checkSource overflowSource (fun _ _ _ img =>
      decide ((runFrom img.code 30 0 (.initial [])).1 = .failed .divisionByZero)) = true :=
    checkSource_of_checkImage (by decide +kernel)
  obtain ⟨_, code, _, img, hcompile, -, -, hload, hrun⟩ := checkSource_eq_true.mp hrun
  exact ⟨code, hcompile, execute_of_failed hload (by decide) (Prod.ext (of_decide_eq_true hrun) rfl)⟩

end PascalStack
