import Mathlib.Data.Int.ModEq
import PascalStack.Proofs.Machine.CountedLoops
import PascalStack.Proofs.Simulation.Division

/-!
# Powers of integers

The code of a power computes its base once, copies the value and multiplies the copies.

* `RunsStraight`           instructions that are run one after the other;
* `copies_run`             the copies, `products_run` the products;
* `modEq_iff_eq_ofInt`     every integer is congruent to one machine integer;
* `power_runs`             what the code of a power does.
-/

namespace PascalStack

open Exec Compile

/-! ## instructions one after the other -/

/-- So many instructions from `p` on are run one after the other. -/
def RunsStraight (code : Code) : (n : Nat) → (p : Nat) → State → State → Prop
  | 0, _, s, t => s = t
  | n + 1, p, s, t => ∃ u, step code p s = (.suspended (p + 1), u) ∧ RunsStraight code n (p + 1) u t

section
variable {code : Code} {targets : String → Option Nat} {m n p q : Nat} {s t u : State}

theorem RunsStraight.trans (h : RunsStraight code n p s t) (h' : RunsStraight code m (p + n) t u) :
    RunsStraight code (n + m) p s u := by
  induction n generalizing p s with
  | zero =>
    cases h
    rwa [Nat.zero_add]
  | succ n ih =>
    obtain ⟨s₁, hstep, hrest⟩ := h
    rw [Nat.succ_add]
    refine ⟨s₁, hstep, ih hrest ?_⟩
    rwa [Nat.add_assoc, Nat.add_comm 1 n]

theorem RunsStraight.stepsTo (h : RunsStraight code n p s t) : StepsTo code n p s (p + n) t := by
  induction n generalizing p s with
  | zero => exact ⟨rfl, h⟩
  | succ n ih =>
    obtain ⟨s₁, hstep, hrest⟩ := h
    refine ⟨p + 1, s₁, hstep, ?_⟩
    have hsteps := ih hrest
    rwa [Nat.add_assoc, Nat.add_comm 1 n] at hsteps

/-! ## copies and products -/

theorem Placed.length {ops : List (Op String)} (hp : Placed code targets p (emit ops) q) : q = p + ops.length := by
  induction ops generalizing p with
  | nil => exact Eq.symm hp
  | cons op ops ih =>
    rw [ih hp.2, List.length_cons]
    omega

theorem exec_dup {v : Value} {rest : List Value} (hs : s.stack = v :: rest) :
    (Op.dup 1).exec p s = .ok (.goto (p + 1)) { s with stack := v :: v :: rest } := by
  obtain ⟨stack, globals, calls, input, output⟩ := s
  cases hs
  rfl

theorem copies_run {v : Value} {rest : List Value}
    (hp : Placed code targets p (emit (List.replicate n (.dup 1))) q) (hs : s.stack = v :: rest) :
    RunsStraight code n p s { s with stack := List.replicate (n + 1) v ++ rest } := by
  induction n generalizing p s rest with
  | zero =>
    rw [List.replicate_one, List.singleton_append, ← hs]
    rfl
  | succ n ih =>
    obtain ⟨_, hdup, hrest⟩ := hp.uncons
    obtain ⟨hcode, rfl⟩ := hdup.instruction (o := .dup 1) (by decide) rfl
    refine ⟨_, step_of_ok hcode (exec_dup hs), ?_⟩
    have hruns := ih (s := { s with stack := v :: v :: rest }) hrest rfl
    rwa [List.append_cons, ← List.replicate_succ'] at hruns

/-- Each product has one more factor. -/
theorem products_run {b : Int64} {x : Int} {rest : List Value}
    (hp : Placed code targets p (emitBasic (List.replicate n (.arith .mul))) q)
    (hs : s.stack = .integer (Int64.ofInt x) :: (List.replicate n (.integer b) ++ rest)) :
    RunsStraight code n p s { s with stack := .integer (Int64.ofInt (x * b.toInt ^ n)) :: rest } := by
  induction n generalizing p s x with
  | zero =>
    rw [List.replicate_zero, List.nil_append] at hs
    rw [pow_zero, mul_one, ← hs]
    rfl
  | succ n ih =>
    rw [emitBasic, List.replicate_succ, List.map_cons] at hp
    obtain ⟨_, hmul, hrest⟩ := hp.uncons
    obtain ⟨hcode, rfl⟩ := Placed.basic hmul
    have hproduct : Arith.mul.eval b (Int64.ofInt x) = .ok (Int64.ofInt (x * b.toInt)) := by
      rw [Arith.eval, Int64.ofInt_mul, Int64.ofInt_toInt, Int64.mul_comm]
    refine ⟨_, step_of_ok hcode (exec_arith_ok hs hproduct), ?_⟩
    rw [pow_succ', ← mul_assoc]
    exact ih hrest rfl

/-- A value is copied, and the copies are multiplied. -/
theorem powers_run {b : Int64} {rest : List Value} {r : Nat}
    (hcopies : Placed code targets p (emit (List.replicate n (.dup 1))) r)
    (hproducts : Placed code targets r (emitBasic (List.replicate n (.arith .mul))) q)
    (hs : s.stack = .integer b :: rest) :
    RunsStraight code (n + n) p s { s with stack := .integer (Int64.ofInt (b.toInt ^ (n + 1))) :: rest } := by
  have hcopied := copies_run hcopies hs
  obtain rfl : r = p + n := by rw [hcopies.length, List.length_replicate]
  refine hcopied.trans ?_
  rw [pow_succ']
  refine products_run hproducts (s := { s with stack := List.replicate (n + 1) (.integer b) ++ rest }) ?_
  rw [List.replicate_succ, List.cons_append, Int64.ofInt_toInt]

end

/-! ## exponents and results -/

/-- Every integer is congruent to one machine integer. -/
theorem modEq_iff_eq_ofInt (x : Int64) (z : Int) : x.toInt ≡ z [ZMOD 2 ^ 64] ↔ x = Int64.ofInt z := by
  constructor
  · intro h
    have hmod : x.toInt % (2 ^ 64 : Nat) = z % (2 ^ 64 : Nat) := h
    rw [← Int64.toInt_inj, Int64.toInt_ofInt, ← Int64.toInt_bmod_size x]
    calc x.toInt.bmod (2 ^ 64) = (x.toInt % (2 ^ 64 : Nat)).bmod (2 ^ 64) := (Int.emod_bmod ..).symm
      _ = (z % (2 ^ 64 : Nat)).bmod (2 ^ 64) := by rw [hmod]
      _ = z.bmod (2 ^ 64) := Int.emod_bmod ..
  · rintro rfl
    rw [Int64.toInt_ofInt]
    exact Int.bmod_emod

/-- The exponents that are accepted. -/
theorem exponentOf_eq_ok {e : Expr} {n : Nat} (h : exponentOf e = .ok n) :
    n ≤ 64 ∧ e.constant? = some (Int64.ofNat n) := by
  unfold exponentOf at h
  split at h
  · rename_i k hk
    split at h
    · cases h
    · rename_i hneg
      split at h
      · cases h
      · rename_i hmax
        cases h
        have hlow : 0 ≤ k.toInt := Int.not_lt.mp fun hlt => hneg (Int64.lt_iff_toInt_lt.mpr hlt)
        have hhigh : k.toInt ≤ 64 := Int.not_lt.mp fun hlt => hmax (Int64.lt_iff_toInt_lt.mpr hlt)
        refine ⟨by omega, hk.trans (congrArg some ?_)⟩
        rw [← Int64.ofInt_eq_ofNat, Int.toNat_of_nonneg hlow, Int64.ofInt_toInt]
  · cases h

/-- The code of a power of integers. -/
theorem power_code {base exponent : Expr} {c d : Compiler} {lines : List Line}
    (hbase : c.scopes.infer base = .ok .integer) (h : (Expr.power base exponent).compile c = .ok lines d) :
    ∃ n, exponentOf exponent = .ok n ∧ ((n = 0 ∧ lines = emit [.pushi 1]) ∨
      ∃ k baseCode, n = k + 1 ∧ base.compile c = .ok baseCode d ∧
        lines = baseCode ++ emit (List.replicate k (.dup 1)) ++ emitBasic (List.replicate k (.arith .mul))) := by
  rw [Expr.compile] at h
  simp only [bind_eq_ok, typeOf_eq_ok, check_eq_ok] at h
  obtain ⟨n, _, ⟨hn, rfl⟩, _, _, ⟨ht, rfl⟩, _, _, ⟨-, rfl⟩, h⟩ := h
  cases hbase.symm.trans ht
  refine ⟨n, hn, ?_⟩
  cases n with
  | zero =>
    rw [if_pos rfl, pure_eq_ok] at h
    exact .inl ⟨rfl, h.1.symm⟩
  | succ k =>
    rw [if_neg (Nat.succ_ne_zero k)] at h
    simp only [bind_eq_ok, pure_eq_ok] at h
    obtain ⟨baseCode, _, hcode, rfl, rfl⟩ := h
    exact .inr ⟨k, baseCode, rfl, hcode, rfl⟩

/-- **Powers of integers.**  Wherever the code of a power is placed, and whatever state it is run in: once the
code of the base has left an integer on the stack, the run goes straight on to the end of the code and does not
come back to the base.  In the place of that integer it leaves the one machine integer that is congruent to the
power, and nothing else has changed.  For the exponent 0 it leaves 1, and the base is not computed at all. -/
theorem power_runs {base exponent : Expr} {c d : Compiler} {lines : List Line}
    (hbase : c.scopes.infer base = .ok .integer) (h : (Expr.power base exponent).compile c = .ok lines d) :
    ∃ n : Nat, n ≤ 64 ∧ exponent.constant? = some (Int64.ofNat n) ∧
      (n = 0 → ∀ code targets p q, Placed code targets p lines q → ∀ s : State,
        StepsTo code 1 p s q { s with stack := .integer 1 :: s.stack }) ∧
      (1 ≤ n → ∃ baseCode, base.compile c = .ok baseCode d ∧
        ∀ code targets p q, Placed code targets p lines q →
          ∃ m, Placed code targets p baseCode m ∧ q = m + 2 * (n - 1) ∧
            ∀ k s t b, StepsTo code k p s m t → t.stack = .integer b :: s.stack →
              ∃ r : Int64, (∀ x : Int64, x.toInt ≡ b.toInt ^ n [ZMOD 2 ^ 64] ↔ x = r) ∧
                RunsStraight code (2 * (n - 1)) m t { t with stack := .integer r :: s.stack } ∧
                StepsTo code (k + 2 * (n - 1)) p s q { t with stack := .integer r :: s.stack }) := by
  obtain ⟨n, hn, hcode⟩ := power_code hbase h
  obtain ⟨hmax, hconstant⟩ := exponentOf_eq_ok hn
  refine ⟨n, hmax, hconstant, ?_, ?_⟩
  · rintro rfl code targets p q hplaced s
    rcases hcode with ⟨-, rfl⟩ | ⟨k, _, hk, -⟩
    · obtain ⟨hone, rfl⟩ := hplaced.instruction (o := .pushi 1) rfl rfl
      exact ⟨_, _, step_of_ok hone rfl, rfl, rfl⟩
    · cases hk
  · intro hpos
    rcases hcode with ⟨rfl, -⟩ | ⟨i, baseCode, rfl, hcompile, rfl⟩
    · cases hpos
    · refine ⟨baseCode, hcompile, fun code targets p q hplaced => ?_⟩
      obtain ⟨m', hplaced, hproducts⟩ := placed_append.mp hplaced
      obtain ⟨m, hbaseCode, hcopies⟩ := placed_append.mp hplaced
      obtain rfl : m' = m + i := by rw [hcopies.length, List.length_replicate]
      have hq : q = m + (i + i) := by
        rw [Placed.length hproducts, List.length_map, List.length_replicate, Nat.add_assoc]
      have htwice : 2 * (i + 1 - 1) = i + i := Nat.two_mul i
      rw [htwice]
      refine ⟨m, hbaseCode, hq, fun k s t b hsteps ht => ?_⟩
      have hruns := powers_run hcopies hproducts ht
      exact ⟨_, fun x => modEq_iff_eq_ofInt x _, hruns, hq ▸ hsteps.trans hruns.stepsTo⟩

/-- The expression `(3037000500 ** 2) ** 2`; already the inner power is greater than all machine integers. -/
def squaresExpr : Expr :=
  .power (.power (.constant (.integer 3037000500)) (.constant (.integer 2))) (.constant (.integer 2))

def squaresCode : Code :=
  #[.ok (.pushi 3037000500), .ok (.dup 1), .ok (.basic (.arith .mul)), .ok (.dup 1), .ok (.basic (.arith .mul))]

/-- A power of a power, both reduced to machine integers. -/
theorem power_runs_squares : ∃ lines, squaresExpr.compile .initial = .ok lines .initial ∧
    Placed squaresCode (fun _ => none) 0 lines 5 ∧
    StepsTo squaresCode 5 0 (.initial []) 5 { State.initial [] with stack := [.integer 21162740538052864] } := by
  have hcompile : squaresExpr.compile .initial = .ok (emit [.pushi 3037000500, .dup 1, .basic (.arith .mul),
      .dup 1, .basic (.arith .mul)]) .initial := rfl
  have hplaced : Placed squaresCode (fun _ => none) 0 (emit [.pushi 3037000500, .dup 1, .basic (.arith .mul),
      .dup 1, .basic (.arith .mul)]) 5 :=
    ⟨fun _ => ⟨_, rfl, rfl⟩, fun _ => ⟨_, rfl, rfl⟩, fun _ => ⟨_, rfl, rfl⟩, fun _ => ⟨_, rfl, rfl⟩,
      fun _ => ⟨_, rfl, rfl⟩, rfl⟩
  refine ⟨_, hcompile, hplaced, ?_⟩
  obtain ⟨n, hn, hconstant, -, hall⟩ := power_runs rfl hcompile
  have htwo : ∀ n ≤ 64, some (2 : Int64) = some (Int64.ofNat n) → n = 2 := by decide
  obtain rfl := htwo n hn hconstant
  obtain ⟨_, hbase, hall⟩ := hall (by decide)
  cases hbase
  obtain ⟨_, ⟨-, -, -, rfl⟩, -, hruns⟩ := hall squaresCode (fun _ => none) 0 5 hplaced
  have hsquare : StepsTo squaresCode 3 0 (.initial []) 3
      { State.initial [] with stack := [.integer (-9223372036709301616)] } :=
    ⟨_, _, rfl, _, _, rfl, _, _, rfl, rfl, rfl⟩
  obtain ⟨r, hr, -, hsteps⟩ := hruns 3 _ _ (-9223372036709301616) hsquare rfl
  obtain rfl : 21162740538052864 = r := (hr 21162740538052864).1 (by decide)
  exact hsteps

end PascalStack
