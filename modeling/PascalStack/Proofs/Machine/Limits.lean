import Mathlib.Data.ENat.Lattice
import PascalStack.Proofs.Machine.CountedLoops
import PascalStack.Proofs.Machine.Failures

/-!
# Limits of steps

* `Returns`            a run without any limit returns after so many instructions;
* `executed`           the number of instructions of such a run, `⊤` if it never returns;
* `runFrom_cases`      a run with some fuel has returned, or it is where the unlimited run is by then;
* `limit_truncates`    a limit does nothing but cut a run short.

An instruction that stops or fails has been executed too; there is none to execute behind the end of the code.
-/

namespace PascalStack

/-- A run without a limit executes `n` instructions and returns, with a fault or without. -/
inductive Returns (code : Code) : (n : Nat) → (p : Nat) → State → Option Fault → State → Prop
  | atEnd {p : Nat} {s : State} : code.size ≤ p → Returns code 0 p s none s
  | stops {p : Nat} {s t : State} : p < code.size → step code p s = (.finished, t) →
      Returns code 1 p s none t
  | fails {p : Nat} {s t : State} {f : Fault} : step code p s = (.failed f, t) →
      Returns code 1 p s (some f) t
  | goesOn {n p q : Nat} {s t u : State} {result : Option Fault} : step code p s = (.suspended q, t) →
      Returns code n q t result u → Returns code (n + 1) p s result u

/-- The number of instructions that a run without a limit executes from the first one on; it is infinite if
the run never returns. -/
noncomputable def executed (code : Code) (s : State) : ℕ∞ :=
  sInf {n : ℕ∞ | ∃ (m : ℕ) (result : Option Fault) (t : State), n = m ∧ Returns code m 0 s result t}

section
variable {code : Code} {n n' p q : Nat} {s t t' u : State} {result result' : Option Fault}

theorem step_atEnd (hp : code.size ≤ p) : step code p s = (.finished, s) := by
  rw [step, Array.getElem?_eq_none hp]

/-- There is one way to return. -/
theorem Returns.unique (h : Returns code n p s result t) (h' : Returns code n' p s result' t') :
    n = n' ∧ result = result' ∧ t = t' := by
  induction h generalizing n' with
  | atEnd hp =>
    cases h' with
    | atEnd _ => exact ⟨rfl, rfl, rfl⟩
    | stops hp' _ => exact absurd hp' (Nat.not_lt.mpr hp)
    | fails hstep => cases hstep.symm.trans (step_atEnd hp)
    | goesOn hstep _ => cases hstep.symm.trans (step_atEnd hp)
  | stops hp hstep =>
    cases h' with
    | atEnd hp' => exact absurd hp (Nat.not_lt.mpr hp')
    | stops _ hstep' =>
      cases hstep.symm.trans hstep'
      exact ⟨rfl, rfl, rfl⟩
    | fails hstep' => cases hstep.symm.trans hstep'
    | goesOn hstep' _ => cases hstep.symm.trans hstep'
  | fails hstep =>
    cases h' with
    | atEnd hp => cases hstep.symm.trans (step_atEnd hp)
    | stops _ hstep' => cases hstep.symm.trans hstep'
    | fails hstep' =>
      cases hstep.symm.trans hstep'
      exact ⟨rfl, rfl, rfl⟩
    | goesOn hstep' _ => cases hstep.symm.trans hstep'
  | goesOn hstep _ ih =>
    cases h' with
    | atEnd hp => cases hstep.symm.trans (step_atEnd hp)
    | stops _ hstep' => cases hstep.symm.trans hstep'
    | fails hstep' => cases hstep.symm.trans hstep'
    | goesOn hstep' hrest =>
      cases hstep.symm.trans hstep'
      obtain ⟨rfl, rfl, rfl⟩ := ih hrest
      exact ⟨rfl, rfl, rfl⟩

theorem Reaches.returns (h : Reaches code p s q t) (hq : Returns code n q t result u) :
    ∃ m, Returns code m p s result u := by
  induction h with
  | refl _ => exact ⟨n, hq⟩
  | step _ hstep _ ih =>
    obtain ⟨m, hm⟩ := ih hq
    exact ⟨m + 1, .goesOn hstep hm⟩

theorem Returns.executed_eq (h : Returns code n 0 s result t) : executed code s = n := by
  apply le_antisymm
  · exact sInf_le ⟨n, result, t, rfl, h⟩
  · refine le_sInf ?_
    rintro _ ⟨m, result', t', rfl, h'⟩
    rw [(h.unique h').1]

theorem executed_eq_top (h : ∀ n result t, ¬ Returns code n 0 s result t) : executed code s = ⊤ := by
  refine sInf_eq_top.mpr ?_
  rintro _ ⟨m, result, t, -, hreturns⟩
  exact absurd hreturns (h m result t)

/-! ## runs with some fuel -/

/-- A run with some fuel has returned as the unlimited run returns. -/
def Returned (code : Code) (k p : Nat) (s : State) : Prop :=
  ∃ n result t, n ≤ k ∧ Returns code n p s result t ∧
    ∃ status, runFrom code k p s = (status, t) ∧ ∀ limit, status.fault? limit = result

/-- A run with some fuel is where the unlimited run is by then, and that has not returned yet. -/
def Interrupted (code : Code) (k p : Nat) (s : State) : Prop :=
  ∃ q t, StepsTo code k p s q t ∧ runFrom code k p s = (.suspended q, t) ∧
    ∀ n result u, Returns code n p s result u → k < n

/-- Nothing else can happen to a run with some fuel. -/
theorem runFrom_cases (code : Code) (k p : Nat) (s : State) : Returned code k p s ∨ Interrupted code k p s := by
  induction k generalizing p s with
  | zero =>
    by_cases hp : p < code.size
    · refine .inr ⟨p, s, ⟨rfl, rfl⟩, by rw [runFrom, if_pos hp], fun n result u h => ?_⟩
      cases h with
      | atEnd hp' => exact absurd hp (Nat.not_lt.mpr hp')
      | _ => exact Nat.succ_pos _
    · exact .inl ⟨0, none, s, Nat.le_refl 0, .atEnd (Nat.not_lt.mp hp), .finished, by rw [runFrom, if_neg hp],
        fun _ => rfl⟩
  | succ k ih =>
    cases hstep : step code p s with
    | mk status t =>
      cases status with
      | finished =>
        by_cases hp : p < code.size
        · exact .inl ⟨1, none, t, Nat.succ_pos k, .stops hp hstep, .finished, by rw [runFrom, hstep], fun _ => rfl⟩
        · have hend := step_atEnd (s := s) (Nat.not_lt.mp hp)
          exact .inl ⟨0, none, s, Nat.zero_le _, .atEnd (Nat.not_lt.mp hp), .finished, by rw [runFrom, hend],
            fun _ => rfl⟩
      | failed f =>
        exact .inl ⟨1, some f, t, Nat.succ_pos k, .fails hstep, .failed f, by rw [runFrom, hstep], fun _ => rfl⟩
      | suspended q =>
        have hrun : runFrom code (k + 1) p s = runFrom code k q t := by rw [runFrom, hstep]
        rcases ih q t with ⟨n, result, u, hn, hreturns, hstatus⟩ | ⟨q', u, hsteps, hsuspended, hlater⟩
        · rw [← hrun] at hstatus
          exact .inl ⟨n + 1, result, u, Nat.succ_le_succ hn, .goesOn hstep hreturns, hstatus⟩
        · refine .inr ⟨q', u, ⟨q, t, hstep, hsteps⟩, hrun.trans hsuspended, fun n result w h => ?_⟩
          cases h with
          | atEnd hp => cases hstep.symm.trans (step_atEnd hp)
          | stops _ hstep' => cases hstep.symm.trans hstep'
          | fails hstep' => cases hstep.symm.trans hstep'
          | goesOn hstep' hrest =>
            cases hstep.symm.trans hstep'
            exact Nat.succ_lt_succ (hlater _ _ _ hrest)

theorem StepsTo.runFrom (h : StepsTo code n p s q t) (k : Nat) :
    PascalStack.runFrom code (n + k) p s = PascalStack.runFrom code k q t := by
  induction n generalizing p s with
  | zero =>
    obtain ⟨rfl, rfl⟩ := h
    rw [Nat.zero_add]
  | succ n ih =>
    obtain ⟨p₁, s₁, hstep, h⟩ := h
    rw [Nat.succ_add, PascalStack.runFrom, hstep]
    exact ih h

/-- A run adds to the output, if it changes it at all. -/
theorem runFrom_prints (code : Code) (k p : Nat) (s : State) : s.Prints (runFrom code k p s).2 := by
  induction k generalizing p s with
  | zero =>
    rw [runFrom]
    split <;> exact .of_output rfl
  | succ k ih =>
    rw [runFrom]
    cases hstep : step code p s with
    | mk status t =>
      cases status with
      | suspended q => exact (step_prints hstep).trans (ih q t)
      | finished | failed f => exact step_prints hstep

/-- With more fuel there is more output. -/
theorem runFrom_prints_le {j k : Nat} (code : Code) (s : State) (hkj : k ≤ j) :
    (runFrom code k p s).2.Prints (runFrom code j p s).2 := by
  obtain ⟨d, rfl⟩ := Nat.exists_eq_add_of_le hkj
  rcases runFrom_cases code k p s with ⟨n, result, t, hn, hreturns, status, hrun, -⟩ | ⟨q, t, hsteps, hrun, -⟩
  · rcases runFrom_cases code (k + d) p s with
      ⟨n', result', t', -, hreturns', status', hrun', -⟩ | ⟨q, t', -, -, hlater⟩
    · obtain ⟨-, -, rfl⟩ := hreturns.unique hreturns'
      rw [hrun, hrun']
      exact .of_output rfl
    · exact absurd (hlater n result t hreturns) (Nat.not_lt.mpr (Nat.le_add_right_of_le hn))
  · rw [hrun, hsteps.runFrom]
    exact runFrom_prints code d q t

/-! ## runs with a limit -/

theorem Returns.run (h : Returns code n 0 s result t) (limit : Option Nat) (hn : n ≤ limit.getD unlimited) :
    PascalStack.run code limit s = (result, t) := by
  rcases runFrom_cases code (limit.getD unlimited) 0 s with
    ⟨n', result', t', -, hreturns, status, hrun, hstatus⟩ | ⟨q, t', -, -, hlater⟩
  · obtain ⟨-, rfl, rfl⟩ := h.unique hreturns
    rw [PascalStack.run, hrun, ← hstatus (limit.getD unlimited)]
  · exact absurd (hlater n result t h) (Nat.not_lt.mpr hn)

end

/-- **A limit only truncates.**  If the unlimited run executes no more instructions than the limit allows, the
run with the limit ends as it does, with the same result and in the same state.  Otherwise it ends with the
limit as its fault, in the state of the unlimited run after so many instructions.  So what it has written is
there with any greater limit as well. -/
theorem limit_truncates (code : Code) (s : State) (k : Nat) :
    (executed code s ≤ k → ∃ n result t, executed code s = (n : ℕ) ∧ Returns code n 0 s result t ∧
      run code (some k) s = (result, t) ∧ (n ≤ unlimited → run code none s = (result, t))) ∧
    (k < executed code s → ∃ q t, StepsTo code k 0 s q t ∧ run code (some k) s = (some (.stepLimit k), t)) ∧
    ∀ j, k ≤ j → ∃ text, (run code (some j) s).2.output = (run code (some k) s).2.output ++ text := by
  refine ⟨fun hle => ?_, fun hlt => ?_, fun j hkj => runFrom_prints_le code s hkj⟩
  · by_cases hreturns : ∃ n result t, Returns code n 0 s result t
    · obtain ⟨n, result, t, hreturns⟩ := hreturns
      have hn : n ≤ k := by
        rw [hreturns.executed_eq] at hle
        exact ENat.natCast_le_natCast.mp hle
      exact ⟨n, result, t, hreturns.executed_eq, hreturns, hreturns.run (some k) hn, hreturns.run none⟩
    · have htop := executed_eq_top fun n result t h => hreturns ⟨n, result, t, h⟩
      rw [htop] at hle
      exact absurd hle (not_le.mpr (ENat.natCast_lt_top k))
  · rcases runFrom_cases code k 0 s with ⟨n, result, t, hn, hreturns, -⟩ | ⟨q, t, hsteps, hrun, -⟩
    · rw [hreturns.executed_eq] at hlt
      exact absurd hn (Nat.not_le.mpr (ENat.natCast_lt_natCast.mp hlt))
    · refine ⟨q, t, hsteps, ?_⟩
      have hstate : runFrom code ((some k).getD unlimited) 0 s = (.suspended q, t) := hrun
      rw [run, hstate]
      rfl

end PascalStack
