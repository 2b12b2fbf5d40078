import PascalStack.Proofs.Machine.Runs
import PascalStack.Proofs.Soundness.Paths

/-!
# Runs that keep to types

* `Setting.IsFunction`, `Setting.Linked`   the code of functions;
* `Running`         a run is in a piece of code, or in a function that was called from there;
* `Running.step`    what one step of such a run does;
* `Running.run`     what any number of steps does.
-/

namespace PascalStack

/-- A piece of code is that of a function with a result of a type. -/
structure Setting.IsFunction (W : Setting) (P : Part) (t : DataType) : Prop where
  sound : P.Sound W
  result : P.result = [t.Holds]
  returns : W.code[P.last]? = some (.ok (.basic .ret))

/-- Every function has its code, which finds the arguments on the stack. -/
def Setting.Linked (W : Setting) : Prop :=
  ∀ e ts t, W.entry e ts t → ∃ P R', W.IsFunction P t ∧
    Path W P.labels P.ready e W.globals (ts.reverse.map DataType.Holds) P.last R' P.result

/-- A run is in the piece of code `B`, which was entered with the values `below` on the stack and the return
addresses `under`, or in a function that was called from there.  Whatever a function returns, the run is then
again at such a place. -/
inductive Running (W : Setting) (B : Part) (below : List Value) (under : List Nat) :
    Memory → Nat → List Value → List Nat → Prop
  | here {m : Memory} {p : Nat} {vs : List Value} : B.At W m p vs →
      Running W B below under m p (vs ++ below) under
  | called {m : Memory} {p back : Nat} {P : Part} {t : DataType} {vs rest : List Value} {calls : List Nat} :
      W.IsFunction P t → P.At W m p vs → under.length ≤ calls.length →
      (∀ m' v, W.Keeps m m' → t.Holds v → Running W B below under m' back (v :: rest) calls) →
      Running W B below under m p (vs ++ rest) (back :: calls)

def Running.Reached (W : Setting) (B : Part) (below : List Value) (under : List Nat) : Status × State → Prop
  | (.suspended q, t) => W.Sorted t.memory ∧ Running W B below under t.memory q t.stack t.calls
  | (.failed f, _) => f.Expected
  | (.finished, _) => True

section
variable {W : Setting} {B : Part} {below : List Value} {under : List Nat} {p : Nat} {s : State}

/-- A run that has left all functions is in the piece of code itself. -/
theorem Running.at_base {m : Memory} {stack : List Value} (h : Running W B below under m p stack under) :
    ∃ vs, stack = vs ++ below ∧ B.At W m p vs := by
  cases h with
  | here h => exact ⟨_, rfl, h⟩
  | called _ _ hdepth _ => exact absurd hdepth (Nat.not_succ_le_self _)

/-- A function comes to its end and returns. -/
theorem step_return {P : Part} {t : DataType} {vs rest : List Value} {back : Nat} {calls : List Nat}
    (hP : W.IsFunction P t) (hvs : Fit P.result vs) (hs : s.stack = vs ++ rest) (hcalls : s.calls = back :: calls) :
    ∃ v, t.Holds v ∧ s.stack = v :: rest ∧
      step W.code P.last s = (.suspended back, { s with calls := calls }) := by
  rw [hP.result] at hvs
  obtain ⟨v, ws, rfl, hv, hws⟩ := hvs.uncons
  obtain rfl := hws.eq_nil
  exact ⟨v, hv, hs, step_of_ok hP.returns (exec_ret hcalls)⟩

/-- **A step of a run that keeps to types**: unless the piece of code is at its end, the run stays in it or in
the functions it has called, or stops with a fault that is expected. -/
theorem Running.step (hW : W.Linked) (hB : B.Sound W)
    (h : Running W B below under s.memory p s.stack s.calls) (hsorted : W.Sorted s.memory)
    (hwithin : W.Within p s) :
    (p = B.last ∧ s.calls = under ∧ ∃ vs, Fit B.result vs ∧ s.stack = vs ++ below) ∨
      (W.Reads p s ∧ Reached W B below under (PascalStack.step W.code p s)) := by
  generalize hm : s.memory = m at h
  generalize hstack : s.stack = stack at h
  generalize hcalls : s.calls = calls at h
  cases h with
  | here hat =>
    subst hm
    rcases hat.outcome hB hsorted hwithin hstack with ⟨hp, hfit⟩ | ⟨hreads, hmoves⟩
    · exact .inl ⟨hp, rfl, _, hfit, rfl⟩
    · refine .inr ⟨hreads, ?_⟩
      cases hmoves with
      | next hstep hstack' hcalls' hsorted' hkeeps hat' =>
        rw [hstep]
        refine ⟨hsorted', ?_⟩
        rw [hstack', hcalls', hcalls]
        exact .here hat'
      | fail hstep hf =>
        rw [hstep]
        exact hf
      | call he harguments hglobals hstep hafter =>
        obtain ⟨P, R', hP, hpath⟩ := hW _ _ _ he
        rw [hstep]
        refine ⟨hsorted, .called hP ⟨_, _, R', hglobals, harguments, hpath⟩ (by rw [hcalls]) fun m v hk hv => ?_⟩
        rw [hcalls]
        exact .here (hafter m v hk hv)
  | @called _ _ back P t vs rest calls hP hat hdepth hback =>
    subst hm
    rcases hat.outcome hP.sound hsorted hwithin hstack with ⟨rfl, hfit⟩ | ⟨hreads, hmoves⟩
    · obtain ⟨v, hv, hstack', hstep⟩ := step_return hP hfit hstack hcalls
      refine .inr ⟨.of_none hP.returns rfl, ?_⟩
      rw [hstep]
      refine ⟨hsorted, ?_⟩
      have hinside := hback s.memory v (.refl _) hv
      rwa [← hstack'] at hinside
    · refine .inr ⟨hreads, ?_⟩
      cases hmoves with
      | next hstep hstack' hcalls' hsorted' hkeeps hat' =>
        rw [hstep]
        refine ⟨hsorted', ?_⟩
        rw [hstack', hcalls', hcalls]
        exact .called hP hat' hdepth fun m v hk hv => hback m v (hkeeps.trans hk) hv
      | fail hstep hf =>
        rw [hstep]
        exact hf
      | call he harguments hglobals hstep hafter =>
        obtain ⟨P', R', hP', hpath⟩ := hW _ _ _ he
        rw [hstep]
        refine ⟨hsorted, .called hP' ⟨_, _, R', hglobals, harguments, hpath⟩ ?_ fun m v hk hv => ?_⟩
        · rw [hcalls, List.length_cons]
          omega
        · rw [hcalls]
          exact .called hP (hafter m v hk hv) hdepth fun m' v' hk' hv' => hback m' v' (hk.trans hk') hv'

/-- The accesses to elements in the first `k` steps of a run are ones that may be made. -/
def Setting.RunsWithin (W : Setting) (k p : Nat) (s : State) : Prop :=
  ∀ j < k, ∀ q t, runFrom W.code j p s = (.suspended q, t) → W.Within q t

theorem Setting.RunsWithin.next {k q : Nat} {t : State} (h : W.RunsWithin (k + 1) p s)
    (hstep : PascalStack.step W.code p s = (.suspended q, t)) : W.RunsWithin k q t := by
  intro j hj q' t' hrun
  refine h (j + 1) (Nat.succ_lt_succ hj) q' t' ?_
  rw [runFrom, hstep]
  exact hrun

/-- **A run that keeps to types**, for any number of steps.  Where the piece of code comes to its end, the run
is over or is not followed any further. -/
theorem Running.run (hW : W.Linked) (hB : B.Sound W) {k : Nat}
    (h : Running W B below under s.memory p s.stack s.calls) (hsorted : W.Sorted s.memory)
    (hwithin : W.RunsWithin k p s)
    (hend : ∀ j < k, ∀ t, runFrom W.code j p s = (.suspended B.last, t) → t.calls = under →
      PascalStack.step W.code B.last t = (.finished, t)) :
    Reached W B below under (runFrom W.code k p s) := by
  induction k generalizing p s with
  | zero =>
    rw [runFrom]
    split
    · exact ⟨hsorted, h⟩
    · trivial
  | succ k ih =>
    by_cases hp : p < W.code.size
    · have hzero : runFrom W.code 0 p s = (.suspended p, s) := by rw [runFrom, if_pos hp]
      have hfirst := hwithin 0 (Nat.succ_pos k) p s hzero
      rcases h.step hW hB hsorted hfirst with ⟨rfl, hcalls, _⟩ | ⟨_, hreached⟩
      · rw [runFrom, hend 0 (Nat.succ_pos k) s hzero hcalls]
        trivial
      · rw [runFrom]
        cases hstep : PascalStack.step W.code p s with
        | mk status t =>
          rw [hstep] at hreached
          cases status with
          | suspended q =>
            refine ih hreached.2 hreached.1 (hwithin.next hstep) fun j hj u hrun => ?_
            refine hend (j + 1) (Nat.succ_lt_succ hj) u ?_
            rw [runFrom, hstep]
            exact hrun
          | failed f => exact hreached
          | finished => trivial
    · have hstep : PascalStack.step W.code p s = (.finished, s) := by
        rw [PascalStack.step, Array.getElem?_eq_none (Nat.not_lt.mp hp)]
      rw [runFrom, hstep]
      trivial

end

end PascalStack
