import PascalStack.Proofs.Machine.Steps

/-!
# Whole runs

* `Image.Ends`, `Image.Fails`, `Image.RunsForever`   how the run of an image ends, if it does;
* `runFrom_done`         a run that is over stays as it is;
* `Steps.visits`         wherever some steps come by, a run with as much fuel is suspended there;
* `Computes.run_cases`   a run with some fuel, next to an evaluation with more.
-/

namespace PascalStack

namespace Image
variable (img : Image) (input : List UInt8)

def Ends (t : State) : Prop := ∃ k, runFrom img.code k 0 (.initial input) = (.finished, t)

def Fails (f : Fault) (t : State) : Prop := ∃ k, runFrom img.code k 0 (.initial input) = (.failed f, t)

/-- The run of an image on an input is never over. -/
def RunsForever : Prop := ∀ k, ∃ q t, runFrom img.code k 0 (.initial input) = (.suspended q, t)

end Image

section
variable {code : Code} {w : Watch} {k n p q : Nat} {s t : State}

def Status.isOver : Status → Bool
  | .suspended _ => false
  | _ => true

/-- A run that is over stays as it is with more fuel. -/
theorem runFrom_done {status : Status} (h : runFrom code k p s = (status, t))
    (hover : status.isOver = true) (j : Nat) : runFrom code (k + j) p s = (status, t) := by
  induction k generalizing p s with
  | zero =>
    rw [runFrom] at h
    split at h
    · cases h
      cases hover
    · rename_i hp
      cases h
      cases j with
      | zero => rw [runFrom, if_neg hp]
      | succ j =>
        have hnone : code[p]? = none := Array.getElem?_eq_none (Nat.not_lt.mp hp)
        rw [Nat.zero_add, runFrom, step, hnone]
  | succ k ih =>
    rw [Nat.succ_add, runFrom]
    rw [runFrom] at h
    cases hs : step code p s with
    | mk st u =>
      rw [hs] at h
      cases st with
      | suspended next => exact ih h
      | finished => exact h
      | failed f => exact h

theorem runFrom_zero_of_step (h : step code p s ≠ (.finished, s)) :
    runFrom code 0 p s = (.suspended p, s) := by
  have hp : p < code.size := by
    refine Nat.lt_of_not_le fun hle => h ?_
    rw [step, Array.getElem?_eq_none hle]
  rw [runFrom, if_pos hp]

/-- Wherever some steps come by, a run with as much fuel is suspended there. -/
theorem Steps.visits (h : Steps code w n p s q t) (hk : k < n) :
    ∃ q' t', PascalStack.runFrom code k p s = (.suspended q', t') ∧ Visit code w q' t' := by
  induction h generalizing k with
  | refl => cases hk
  | step hv hs _ ih =>
    cases k with
    | zero => exact ⟨_, _, runFrom_zero_of_step (by rw [hs]; nofun), hv⟩
    | succ k =>
      rw [PascalStack.runFrom, hs]
      exact ih (Nat.lt_of_succ_lt_succ hk)

theorem runFrom_of_step {status : Status} {u : State} (h : step code p s = (status, u))
    (hover : status.isOver = true) : runFrom code 1 p s = (status, u) := by
  rw [runFrom, h]
  cases status with
  | suspended next => cases hover
  | finished => rfl
  | failed f => rfl

theorem step_stop (h : code[p]? = some (.ok (.basic .stop))) : step code p s = (.finished, s) := by
  rw [step, h]
  rfl

end

section
variable {code : Code} {w : Watch} {n last : Nat} {x : Eval Unit} {input : List UInt8}

theorem State.initial_memory (input : List UInt8) : (State.initial input).memory = .initial input := by
  unfold State.memory State.initial Memory.initial
  simp

/-- An evaluation that ends is followed by a run that ends, with both stacks empty. -/
theorem Computes.run_of_ok {m : Memory} (hlast : code[last]? = some (.ok (.basic .stop)))
    (h : Computes code w n 0 last [] x fun _ => []) (hx : x (.initial input) = .ok () m) :
    ∃ k t, Steps code w k 0 (.initial input) last t ∧ runFrom code (k + 1) 0 (.initial input) = (.finished, t) ∧
      t.memory = m ∧ t.stack = [] ∧ t.calls = [] := by
  have hf := h (.initial input) [] rfl
  rw [State.initial_memory, hx] at hf
  obtain ⟨k, q, t, hsteps, hm, rfl, hstack, hcalls⟩ := hf
  refine ⟨k, t, hsteps, ?_, hm, hstack, hcalls⟩
  rw [hsteps.runFrom]
  exact runFrom_of_step (step_stop hlast) rfl

/-- An evaluation that stops with a fault is followed by a run that stops with it. -/
theorem Computes.run_of_fault {m : Memory} {f : Fault} (h : Computes code w n 0 last [] x fun _ => [])
    (hx : x (.initial input) = .error (.fault f) m) :
    f.isRegular = true ∧ ∃ k q t u, Steps code w k 0 (.initial input) q t ∧ Visit code w q t ∧
      step code q t = (.failed f, u) ∧ runFrom code (k + 1) 0 (.initial input) = (.failed f, u) ∧
      u.memory = m := by
  have hf := h (.initial input) [] rfl
  rw [State.initial_memory, hx] at hf
  obtain ⟨hreg, k, q, t, u, hsteps, hvisit, hfail, hm⟩ := hf
  refine ⟨hreg, k, q, t, u, hsteps, hvisit, hfail, ?_, hm⟩
  rw [hsteps.runFrom]
  exact runFrom_of_step hfail rfl

/-- An evaluation is stopped only at what is not let through. -/
theorem Computes.stopped_only {m : Memory} {e : Event} (h : Computes code w n 0 last [] x fun _ => [])
    (hx : x (.initial input) = .error (.stopped e) m) : w e = false := by
  have hf := h (.initial input) [] rfl
  rw [State.initial_memory, hx] at hf
  exact hf

/-- With the fuel for some steps a run is suspended after them or on its way. -/
theorem Steps.suspended {K k p q : Nat} {s t : State} (h : Steps code w K p s q t) (hk : k ≤ K)
    (hq : q < code.size) (hvisit : Visit code w q t) :
    ∃ q' t', PascalStack.runFrom code k p s = (.suspended q', t') ∧ Visit code w q' t' := by
  rcases Nat.lt_or_eq_of_le hk with hk | rfl
  · exact h.visits hk
  · refine ⟨q, t, ?_, hvisit⟩
    have hrun := h.runFrom 0
    rw [Nat.add_zero] at hrun
    rw [hrun, PascalStack.runFrom, if_pos hq]

/-- A run with some fuel, next to an evaluation with more. -/
theorem Computes.run_cases {k : Nat} (hlast : code[last]? = some (.ok (.basic .stop)))
    (h : Computes code w n 0 last [] x fun _ => []) (hk : k < n) (input : List UInt8) :
    (∃ q t, runFrom code k 0 (.initial input) = (.suspended q, t) ∧ Visit code w q t) ∨
    (∃ t, runFrom code k 0 (.initial input) = (.finished, t) ∧ x (.initial input) = .ok () t.memory ∧
      t.stack = [] ∧ t.calls = []) ∨
    (∃ f t, runFrom code k 0 (.initial input) = (.failed f, t) ∧ f.isRegular = true ∧
      x (.initial input) = .error (.fault f) t.memory) ∨
    ∃ e m, x (.initial input) = .error (.stopped e) m ∧ w e = false := by
  cases hx : x (.initial input) with
  | ok u m =>
    obtain ⟨K, t, hsteps, hrun, rfl, hstack, hcalls⟩ := h.run_of_ok hlast hx
    rcases Nat.lt_or_ge K k with hk | hk
    · obtain ⟨j, rfl⟩ := Nat.exists_eq_add_of_le hk
      exact .inr (.inl ⟨t, runFrom_done hrun rfl j, rfl, hstack, hcalls⟩)
    · exact .inl (hsteps.suspended hk (Array.getElem?_eq_some_iff.mp hlast).1 (.of_quiet hlast rfl))
  | error e m =>
    cases e with
    | fault f =>
      obtain ⟨hreg, K, q, t, u, hsteps, hvisit, hstep, hrun, rfl⟩ := h.run_of_fault hx
      rcases Nat.lt_or_ge K k with hk | hk
      · obtain ⟨j, rfl⟩ := Nat.exists_eq_add_of_le hk
        exact .inr (.inr (.inl ⟨f, u, runFrom_done hrun rfl j, hreg, rfl⟩))
      · refine .inl (hsteps.suspended hk (Nat.lt_of_not_le fun hle => ?_) hvisit)
        rw [step, Array.getElem?_eq_none hle] at hstep
        cases hstep
    | unfinished =>
      have hf := h (.initial input) [] rfl
      rw [State.initial_memory, hx] at hf
      obtain ⟨K, q, t, hn, hsteps⟩ := hf
      exact .inl (hsteps.visits (Nat.lt_of_lt_of_le hk hn))
    | stopped e => exact .inr (.inr (.inr ⟨e, m, rfl, h.stopped_only hx⟩))

end

end PascalStack
