import PascalStack.Compiler.Stmt
import PascalStack.Proofs.Machine.Runs

/-!
# Counted loops in a run

A counted loop stores the initial value in its control variable, and then, turn after turn, computes the final
value, compares, runs its body and counts.

* `StepsTo`, `Arrives`      parts of a run: so many steps, and the first arrival at a position;
* `Direction.values`        the values that a loop is meant to count through, and `Direction.count` their number;
* `Direction.Endless`       the final value has no machine integer beyond it, so the test never fails;
* `LoopPlace`               where the parts of a loop stand, and `LoopPlace.Stands` with which instructions;
* `LoopPlace.Turns`         turns of a loop, each with the value of the control variable in its body;
* `LoopPlace.Stands.turn`   one turn, `LoopPlace.Stands.turns` as many as the test lets through;
* `LoopPlace.Stands.counts` a loop makes the turns it is meant to make, or it is endless.
-/

namespace PascalStack

open Exec

/-! ## parts of runs -/

section
variable (code : Code)

def StepsTo : Nat → Nat → State → Nat → State → Prop
  | 0, p, s, q, t => p = q ∧ s = t
  | n + 1, p, s, q, t => ∃ p' s', step code p s = (.suspended p', s') ∧ StepsTo n p' s' q t

/-- A run comes to the position `b` on the level of the return stack `calls`, for the first time. -/
inductive Arrives (b : Nat) (calls : List Nat) : Nat → State → State → Prop
  | here {s : State} : s.calls = calls → Arrives b calls b s s
  | step {p p' : Nat} {s s' t : State} : ¬ (p = b ∧ s.calls = calls) →
      step code p s = (.suspended p', s') → Arrives b calls p' s' t → Arrives b calls p s t

end

section
variable {code : Code} {calls : List Nat} {n b p q q' : Nat} {s t t' : State}

theorem StepsTo.unique (h : StepsTo code n p s q t) (h' : StepsTo code n p s q' t') : q = q' ∧ t = t' := by
  induction n generalizing p s with
  | zero =>
    obtain ⟨rfl, rfl⟩ := h
    exact h'
  | succ n ih =>
    obtain ⟨p₁, s₁, hstep, h⟩ := h
    obtain ⟨p₂, s₂, hstep', h'⟩ := h'
    cases hstep.symm.trans hstep'
    exact ih h h'

theorem StepsTo.trans {m r : Nat} {u : State} (h : StepsTo code n p s q t) (h' : StepsTo code m q t r u) :
    StepsTo code (n + m) p s r u := by
  induction n generalizing p s with
  | zero =>
    obtain ⟨rfl, rfl⟩ := h
    rwa [Nat.zero_add]
  | succ n ih =>
    obtain ⟨p₁, s₁, hstep, h⟩ := h
    rw [Nat.succ_add]
    exact ⟨p₁, s₁, hstep, ih h⟩

theorem stepsTo_of_runFrom (h : runFrom code n p s = (.suspended q, t)) : StepsTo code n p s q t := by
  induction n generalizing p s with
  | zero =>
    rw [runFrom] at h
    split at h <;> cases h
    exact ⟨rfl, rfl⟩
  | succ n ih =>
    rw [runFrom] at h
    cases hstep : step code p s with
    | mk status s₁ =>
      rw [hstep] at h
      cases status with
      | suspended p₁ => exact ⟨p₁, s₁, hstep, ih h⟩
      | finished | failed _ => cases h

/-- A run with less fuel is suspended on the way. -/
theorem StepsTo.suspended {k : Nat} (h : StepsTo code n p s q t) (hk : k < n) :
    ∃ q' t', runFrom code k p s = (.suspended q', t') := by
  induction k generalizing n p s with
  | zero =>
    obtain ⟨m, rfl⟩ := Nat.exists_eq_add_of_lt hk
    rw [Nat.zero_add] at h
    obtain ⟨p₁, s₁, hstep, -⟩ := h
    exact ⟨p, s, runFrom_zero_of_step (by rw [hstep]; nofun)⟩
  | succ k ih =>
    obtain ⟨m, rfl⟩ := Nat.exists_eq_add_of_lt hk
    obtain ⟨p₁, s₁, hstep, h⟩ := h
    rw [runFrom, hstep]
    exact ih h (by omega)

theorem Arrives.calls_eq (h : Arrives code b calls p s t) : t.calls = calls := by
  induction h with
  | here h => exact h
  | step _ _ _ ih => exact ih

theorem Arrives.unique (h : Arrives code b calls p s t) (h' : Arrives code b calls p s t') : t = t' := by
  induction h with
  | here h =>
    cases h' with
    | here _ => rfl
    | step hnot _ _ => exact absurd ⟨rfl, h⟩ hnot
  | step hnot hstep _ ih =>
    cases h' with
    | here h => exact absurd ⟨rfl, h⟩ hnot
    | step _ hstep' h' =>
      cases hstep.symm.trans hstep'
      exact ih h'

theorem Arrives.stepsTo (h : Arrives code b calls p s t) : ∃ n, StepsTo code n p s b t := by
  induction h with
  | here _ => exact ⟨0, rfl, rfl⟩
  | step _ hstep _ ih =>
    obtain ⟨n, hn⟩ := ih
    exact ⟨n + 1, _, _, hstep, hn⟩

end

/-! ## counting -/

namespace Direction
variable (d : Direction) (lo hi : Int64)

def sign : Direction → Int
  | .to => 1
  | .downto => -1

/-- The value of the control variable after so many turns; it is counted in machine integers. -/
def value (i : Nat) : Int64 := Int64.ofInt (lo.toInt + d.sign * i)

def values (n : Nat) : List Int64 := (List.range n).map (d.value lo)

/-- The number of integers from the initial to the final value. -/
def count : Nat := (d.sign * (hi.toInt - lo.toInt) + 1).toNat

/-- The last machine integer in a direction. -/
def last : Direction → Int64
  | .to => Int64.maxValue
  | .downto => Int64.minValue

/-- There are values to count, and no machine integer beyond the final one. -/
def Endless : Prop := 0 < d.count lo hi ∧ hi = d.last

instance : Decidable (d.Endless lo hi) := inferInstanceAs (Decidable (_ ∧ _))

variable {d lo hi}

/-- The loop goes on as long as the final value is not passed. -/
theorem holds_test {a b : Int64} : d.test.holds a b = true ↔ 0 ≤ d.sign * (b.toInt - a.toInt) := by
  cases d
  · show decide (a ≤ b) = true ↔ 0 ≤ 1 * (b.toInt - a.toInt)
    rw [decide_eq_true_eq, Int64.le_iff_toInt_le]
    omega
  · show decide (b ≤ a) = true ↔ 0 ≤ -1 * (b.toInt - a.toInt)
    rw [decide_eq_true_eq, Int64.le_iff_toInt_le]
    omega

theorem value_zero : d.value lo 0 = lo := by
  unfold value
  rw [Int.natCast_zero, Int.mul_zero, Int.add_zero, Int64.ofInt_toInt]

/-- The control variable is counted in machine integers. -/
theorem eval_step (i : Nat) : d.step.eval (d.value lo i) 1 = .ok (d.value lo (i + 1)) := by
  unfold value
  cases d
  · show Except.ok (Int64.ofInt (lo.toInt + 1 * i) + Int64.ofInt 1) = .ok (Int64.ofInt (lo.toInt + 1 * ↑(i + 1)))
    rw [← Int64.ofInt_add]
    congr 2
    omega
  · show Except.ok (Int64.ofInt (lo.toInt + -1 * i) - Int64.ofInt 1) = .ok (Int64.ofInt (lo.toInt + -1 * ↑(i + 1)))
    rw [← Int64.ofInt_sub]
    congr 2
    omega

theorem values_succ (n : Nat) : d.values lo (n + 1) = d.values lo n ++ [d.value lo n] := by
  unfold values
  rw [List.range_succ, List.map_append, List.map_cons, List.map_nil]

theorem length_values (n : Nat) : (d.values lo n).length = n := by
  unfold values
  rw [List.length_map, List.length_range]

/-- Up to the final value nothing is reduced. -/
theorem toInt_value {i : Nat} (h : i < d.count lo hi) : (d.value lo i).toInt = lo.toInt + d.sign * i := by
  have hlo := lo.le_toInt
  have hlo' := lo.toInt_lt
  have hhi := hi.le_toInt
  have hhi' := hi.toInt_lt
  unfold count at h
  refine Int64.toInt_ofInt_of_le ?_ ?_
  all_goals cases d <;> simp only [sign] at h ⊢ <;> omega

theorem holds_of_lt_count {i : Nat} (h : i < d.count lo hi) : d.test.holds (d.value lo i) hi = true := by
  rw [holds_test, toInt_value h]
  unfold count at h
  cases d <;> simp only [sign] at h ⊢ <;> omega

theorem toInt_last_to : Direction.to.last.toInt = 9223372036854775807 := by decide

theorem toInt_last_downto : Direction.downto.last.toInt = -9223372036854775808 := by decide

/-- The value after the last turn, if it is a machine integer. -/
theorem toInt_value_count (hpos : 0 < d.count lo hi) (hlast : hi ≠ d.last) :
    (d.value lo (d.count lo hi)).toInt = hi.toInt + d.sign := by
  have hcount : lo.toInt + d.sign * (d.count lo hi : Nat) = hi.toInt + d.sign := by
    unfold count at hpos ⊢
    cases d <;> simp only [sign] at hpos ⊢ <;> omega
  have hne : hi.toInt ≠ d.last.toInt := fun e => hlast (Int64.toInt_inj.1 e)
  have hhi := hi.le_toInt
  have hhi' := hi.toInt_lt
  unfold value
  rw [hcount]
  refine Int64.toInt_ofInt_of_le ?_ ?_
  all_goals cases d <;> simp only [sign, toInt_last_to, toInt_last_downto] at hne ⊢ <;> omega

/-- Beyond the final value the test fails, if there is a machine integer. -/
theorem not_holds_count (h : ¬ d.Endless lo hi) : d.test.holds (d.value lo (d.count lo hi)) hi = false := by
  rw [Bool.eq_false_iff, Ne, holds_test]
  rcases Nat.eq_zero_or_pos (d.count lo hi) with hzero | hpos
  · rw [hzero, value_zero]
    unfold count at hzero
    omega
  · rw [toInt_value_count hpos fun hlast => h ⟨hpos, hlast⟩]
    cases d <;> simp only [sign] <;> omega

/-- No machine integer is beyond the last one. -/
theorem holds_last (a : Int64) : d.test.holds a d.last = true := by
  rw [holds_test]
  have ha := a.le_toInt
  have ha' := a.toInt_lt
  cases d <;> simp only [sign, toInt_last_to, toInt_last_downto] <;> omega

end Direction

/-! ## loops -/

/-- Where the parts of a counted loop stand: the code of the initial value from `start` to `store`, that of
the final value between `head` and `test`, and the body from `body` to `next`. -/
structure LoopPlace where
  slot : Nat
  direction : Direction
  start : Nat
  store : Nat
  test : Nat
  next : Nat

namespace LoopPlace

section
variable (F : LoopPlace)

def head : Nat := F.store + 1

def body : Nat := F.test + 2

def stop : Nat := F.next + 5

/-- The instructions of a loop around the parts that it is made of. -/
structure Stands (code : Code) : Prop where
  store : code[F.store]? = some (.ok (.storeg (some F.slot)))
  current : code[F.head]? = some (.ok (.pushg (some F.slot)))
  test : code[F.test]? = some (.ok (.basic (.order F.direction.test)))
  exit : code[F.test + 1]? = some (.ok (.jz F.stop))
  load : code[F.next]? = some (.ok (.pushg (some F.slot)))
  one : code[F.next + 1]? = some (.ok (.pushi 1))
  count : code[F.next + 2]? = some (.ok (.basic (.arith F.direction.step)))
  keep : code[F.next + 3]? = some (.ok (.storeg (some F.slot)))
  back : code[F.next + 4]? = some (.ok (.jump F.head))
  head_lt : F.head < F.test
  body_le : F.body ≤ F.next

/-- On the level of `calls` the control variable is at `v`. -/
structure Holds (calls : List Nat) (s : State) (v : Int64) : Prop where
  slot : F.slot < maxGlobals
  value : s.memory.slots F.slot = .integer v
  calls_eq : s.calls = calls

variable (code : Code)

/-- From `s`, the initial value is `lo`, and with it in the control variable the first turn begins in `s₀`. -/
def Begins (s : State) (lo : Int64) (s₀ : State) : Prop :=
  ∃ u, Arrives code F.store s.calls F.start s u ∧ u.stack = .integer lo :: s.stack ∧
    StepsTo code 1 F.store u F.head s₀

variable (calls : List Nat)

/-- A turn that begins in `s` comes to the body in `b`. -/
def Enters (s b : State) : Prop :=
  ∃ u, Arrives code F.test calls F.head s u ∧ StepsTo code 2 F.test u F.body b

/-- A turn that begins in `s` comes behind the loop in `w`, and not to the body. -/
def Leaves (s w : State) : Prop :=
  ∃ u, Arrives code F.test calls F.head s u ∧ StepsTo code 2 F.test u F.stop w

/-- A turn from `s` to `t`, with the control variable at `v` when the body begins. -/
def Turn (s : State) (v : Int64) (t : State) : Prop :=
  ∃ b n, F.Enters code calls s b ∧ b.memory.slots F.slot = .integer v ∧
    Arrives code F.next calls F.body b n ∧ StepsTo code 5 F.next n F.head t

inductive Turns : State → List Int64 → State → Prop
  | nil {s : State} : Turns s [] s
  | cons {s t u : State} {v : Int64} {vs : List Int64} :
      F.Turn code calls s v t → Turns t vs u → Turns s (v :: vs) u

/-- In the turns from `s₀` on, the final value is `hi` each time, and computing it leaves the control variable
as it is. -/
def Bounded (s₀ : State) (hi : Int64) : Prop :=
  ∀ vs s, F.Turns code calls s₀ vs s → s.calls = calls →
    ∃ u, Arrives code F.test calls (F.head + 1) { s with stack := s.memory.slots F.slot :: s.stack } u ∧
      u.stack = .integer hi :: s.memory.slots F.slot :: s.stack ∧
      u.memory.slots F.slot = s.memory.slots F.slot

/-- In the turns from `s₀` on, the body comes to its end and leaves the control variable as it is. -/
def Passable (s₀ : State) : Prop :=
  ∀ vs s b, F.Turns code calls s₀ vs s → F.Enters code calls s b → b.calls = calls →
    ∃ n, Arrives code F.next calls F.body b n ∧ n.memory.slots F.slot = b.memory.slots F.slot

end

section
variable {F : LoopPlace} {code : Code} {calls : List Nat} {s s₀ t t' u b w w' : State} {v v' lo hi : Int64}
  {vs vs' : List Int64}

/-! ### there is one way to go -/

theorem Enters.unique {b' : State} (h : F.Enters code calls s b) (h' : F.Enters code calls s b') : b = b' := by
  obtain ⟨u, harrives, hsteps⟩ := h
  obtain ⟨u', harrives', hsteps'⟩ := h'
  cases harrives.unique harrives'
  exact (hsteps.unique hsteps').2

/-- A turn does not come to the body and behind the loop. -/
theorem Stands.not_leaves (hF : F.Stands code) (h : F.Enters code calls s b) : ¬ F.Leaves code calls s w := by
  rintro ⟨u', harrives', hsteps'⟩
  obtain ⟨u, harrives, hsteps⟩ := h
  cases harrives.unique harrives'
  have hbody : F.body = F.next + 5 := (hsteps.unique hsteps').1
  have hle := hF.body_le
  omega

theorem Turn.unique (h : F.Turn code calls s v t) (h' : F.Turn code calls s v' t') : v = v' ∧ t = t' := by
  obtain ⟨b, n, henters, hv, harrives, hsteps⟩ := h
  obtain ⟨b', n', henters', hv', harrives', hsteps'⟩ := h'
  cases henters.unique henters'
  cases harrives.unique harrives'
  cases hv.symm.trans hv'
  exact ⟨rfl, (hsteps.unique hsteps').2⟩

theorem Turns.concat (h : F.Turns code calls s vs t) (h' : F.Turn code calls t v u) :
    F.Turns code calls s (vs ++ [v]) u := by
  induction h with
  | nil => exact .cons h' .nil
  | cons hturn _ ih => exact .cons hturn (ih h')

theorem Begins.stepsTo (h : F.Begins code s lo s₀) : ∃ n, StepsTo code n F.start s F.head s₀ := by
  obtain ⟨u, harrives, -, hstore⟩ := h
  obtain ⟨n, hn⟩ := harrives.stepsTo
  exact ⟨n + 1, hn.trans hstore⟩

/-- Each turn takes some steps. -/
theorem Turns.stepsTo (h : F.Turns code calls s vs t) :
    ∃ n, vs.length ≤ n ∧ StepsTo code n F.head s F.head t := by
  induction h with
  | nil => exact ⟨0, Nat.le_refl 0, rfl, rfl⟩
  | cons hturn _ ih =>
    obtain ⟨b, n, ⟨u, htest, hbody⟩, -, hnext, hhead⟩ := hturn
    obtain ⟨i, hi⟩ := htest.stepsTo
    obtain ⟨j, hj⟩ := hnext.stepsTo
    obtain ⟨k, hk, hrest⟩ := ih
    refine ⟨_, ?_, ((hi.trans hbody).trans (hj.trans hhead)).trans hrest⟩
    rw [List.length_cons]
    omega

/-- A loop that is left makes no more turns than those before. -/
theorem Stands.prefix_of_leaves (hF : F.Stands code) (h : F.Turns code calls s vs t)
    (h' : F.Turns code calls s vs' t') (hleaves : F.Leaves code calls t' w) : vs <+: vs' := by
  induction h generalizing vs' with
  | nil => exact List.nil_prefix
  | cons hturn _ ih =>
    cases h' with
    | nil =>
      obtain ⟨b, _, henters, -⟩ := hturn
      exact absurd hleaves (hF.not_leaves henters)
    | cons hturn' h' =>
      obtain ⟨rfl, rfl⟩ := hturn.unique hturn'
      exact (List.prefix_cons_inj _).mpr (ih h')

theorem Stands.turns_unique (hF : F.Stands code) (h : F.Turns code calls s vs t) (hl : F.Leaves code calls t w)
    (h' : F.Turns code calls s vs' t') (hl' : F.Leaves code calls t' w') : vs' = vs := by
  have hle := (hF.prefix_of_leaves h h' hl').length_le
  have hprefix := hF.prefix_of_leaves h' h hl
  exact hprefix.eq_of_length (Nat.le_antisymm hprefix.length_le hle)

/-! ### one turn -/

/-- The control variable is pushed. -/
theorem Stands.current_step (hF : F.Stands code) (hslot : F.slot < maxGlobals) (s : State) :
    step code F.head s =
      (.suspended (F.head + 1), { s with stack := s.memory.slots F.slot :: s.stack }) := by
  have hload := Exec.loadGlobal_eq F.slot s
  rw [if_pos hslot] at hload
  exact step_of_ok hF.current (EStateM.bind_of_ok hload)

/-- The test, with the control variable and the final value on the stack. -/
theorem Stands.test_steps (hF : F.Stands code) {rest : List Value}
    (hu : u.stack = .integer hi :: .integer v :: rest) :
    ∃ b, StepsTo code 2 F.test u (if F.direction.test.holds v hi then F.body else F.stop) b ∧
      b.memory = u.memory ∧ b.calls = u.calls := by
  obtain ⟨m, hm, hmstack, hmcalls, hmmemory⟩ := (does_binary rfl).step hF.test hu rfl
  obtain ⟨b, hb, -, hbcalls, hbmemory⟩ := does_jz.step hF.exit hmstack rfl
  refine ⟨b, ⟨_, m, hm, _, b, hb, ?_, rfl⟩, hbmemory.trans hmmemory, hbcalls.trans hmcalls⟩
  cases F.direction.test.holds v hi <;> rfl

/-- The control variable is counted. -/
theorem Stands.count_steps (hF : F.Stands code) (hslot : F.slot < maxGlobals)
    (hs : s.memory.slots F.slot = .integer v) (hv : F.direction.step.eval v 1 = .ok v') :
    ∃ t, StepsTo code 5 F.next s F.head t ∧ t.memory.slots F.slot = .integer v' ∧ t.calls = s.calls := by
  have hload : Eval.loadSlot .off F.slot s.memory = .ok (.integer v) s.memory := by
    rw [Eval.loadSlot_eq, if_pos hslot, hs]
    exact if_pos rfl
  have hcount : ∀ m, Eval.lift ((Basic.arith F.direction.step).binary (.integer v) (.integer 1)) m =
      .ok (.integer v') m := by
    intro m
    show Eval.lift (F.direction.step.eval v 1 >>= fun n => pure (Value.integer n)) m = _
    rw [hv]
    rfl
  obtain ⟨s₁, h₁, hstack₁, hcalls₁, -⟩ := (does_pushg _ F.slot).step hF.load (List.nil_append _).symm hload
  obtain ⟨s₂, h₂, hstack₂, hcalls₂, -⟩ := (does_push rfl).step hF.one hstack₁ rfl
  obtain ⟨s₃, h₃, hstack₃, hcalls₃, -⟩ := (does_binary rfl).step hF.count hstack₂ (hcount _)
  obtain ⟨s₄, h₄, hstack₄, hcalls₄, hmemory₄⟩ := (does_storeg F.slot).step hF.keep hstack₃ (Eval.storeSlot_of_lt hslot)
  obtain ⟨t, h₅, -, hcalls₅, hmemory₅⟩ := does_jump.step hF.back hstack₄ rfl
  refine ⟨t, ⟨_, s₁, h₁, _, s₂, h₂, _, s₃, h₃, _, s₄, h₄, _, t, h₅, rfl, rfl⟩, ?_, ?_⟩
  · rw [hmemory₅, hmemory₄]
    exact if_pos rfl
  · rw [hcalls₅, hcalls₄, hcalls₃, hcalls₂, hcalls₁]

/-- The control variable starts with the initial value. -/
theorem Stands.begins (hF : F.Stands code) (h : F.Begins code s lo s₀) : F.Holds s.calls s₀ lo := by
  obtain ⟨u, harrives, hu, p, s', hstep, rfl, rfl⟩ := h
  have hslot : F.slot < maxGlobals := by
    refine Decidable.byContradiction fun hslot => ?_
    have hexec : (Op.storeg (some F.slot)).exec F.store u = .error _ { u with stack := s.stack } :=
      (EStateM.bind_of_ok (pop_of_cons hu)).trans (EStateM.bind_of_error ((Exec.storeGlobal_eq ..).2 hslot))
    cases hstep.symm.trans (step_of_error hF.store hexec)
  obtain ⟨t, ht, -, hcalls, hmemory⟩ :=
    (does_storeg F.slot).step hF.store hu (Eval.storeSlot_of_lt hslot)
  cases hstep.symm.trans ht
  refine ⟨hslot, ?_, hcalls.trans harrives.calls_eq⟩
  rw [hmemory]
  exact if_pos rfl

/-- A turn comes to the test with the control variable and the final value. -/
theorem Stands.tested (hF : F.Stands code) (hs : F.Holds calls s v) (hhi : F.Bounded code calls s₀ hi)
    (hturns : F.Turns code calls s₀ vs s) :
    ∃ u b, Arrives code F.test calls F.head s u ∧
      StepsTo code 2 F.test u (if F.direction.test.holds v hi then F.body else F.stop) b ∧
      F.Holds calls b v := by
  obtain ⟨u, harrives, hustack, humemory⟩ := hhi vs s hturns hs.calls_eq
  rw [hs.value] at hustack humemory
  obtain ⟨b, hsteps, hbmemory, hbcalls⟩ := hF.test_steps hustack
  refine ⟨u, b, .step ?_ (hF.current_step hs.slot s) harrives, hsteps, hs.slot, ?_, ?_⟩
  · exact fun h => absurd h.1 (Nat.ne_of_lt hF.head_lt)
  · rw [hbmemory, humemory]
  · rw [hbcalls, harrives.calls_eq]

/-- **One turn.**  As long as the final value is not passed, a turn runs the body and counts. -/
theorem Stands.turn (hF : F.Stands code) (hs : F.Holds calls s v) (hhi : F.Bounded code calls s₀ hi)
    (hpass : F.Passable code calls s₀) (hturns : F.Turns code calls s₀ vs s)
    (htest : F.direction.test.holds v hi = true) (hv : F.direction.step.eval v 1 = .ok v') :
    ∃ t, F.Turn code calls s v t ∧ F.Holds calls t v' := by
  obtain ⟨u, b, harrives, hsteps, hb⟩ := hF.tested hs hhi hturns
  rw [if_pos htest] at hsteps
  have henters : F.Enters code calls s b := ⟨u, harrives, hsteps⟩
  obtain ⟨n, hnext, hn⟩ := hpass vs s b hturns henters hb.calls_eq
  obtain ⟨t, hcount, htvalue, htcalls⟩ := hF.count_steps hs.slot (hn.trans hb.value) hv
  exact ⟨t, ⟨b, n, henters, hb.value, hnext, hcount⟩, hs.slot, htvalue, htcalls.trans hnext.calls_eq⟩

/-- **Turn after turn.**  The control variable goes through the values for which the test holds. -/
theorem Stands.turns (hF : F.Stands code) (hs : F.Holds calls s₀ lo) (hhi : F.Bounded code calls s₀ hi)
    (hpass : F.Passable code calls s₀) {n : Nat}
    (htest : ∀ i < n, F.direction.test.holds (F.direction.value lo i) hi = true) :
    ∃ t, F.Turns code calls s₀ (F.direction.values lo n) t ∧ F.Holds calls t (F.direction.value lo n) := by
  induction n with
  | zero => exact ⟨s₀, .nil, Direction.value_zero.symm ▸ hs⟩
  | succ n ih =>
    obtain ⟨s, hturns, hvalue⟩ := ih fun i hi => htest i (Nat.lt_succ_of_lt hi)
    obtain ⟨t, hturn, ht⟩ :=
      hF.turn hvalue hhi hpass hturns (htest n (Nat.lt_succ_self n)) (Direction.eval_step n)
    exact ⟨t, Direction.values_succ n ▸ hturns.concat hturn, ht⟩

/-- **Counting.**  If there is a machine integer beyond the final value, or nothing to count, a loop makes one
turn for each integer from the initial to the final value and is left.  Otherwise it goes on for ever. -/
theorem Stands.counts (hF : F.Stands code) (hbegins : F.Begins code s lo s₀)
    (hhi : F.Bounded code s.calls s₀ hi) (hpass : F.Passable code s.calls s₀) :
    if F.direction.Endless lo hi then
      (∀ n, ∃ t, F.Turns code s.calls s₀ (F.direction.values lo n) t) ∧
        ∀ vs t w, F.Turns code s.calls s₀ vs t → ¬ F.Leaves code s.calls t w
    else
      ∃ t w, F.Turns code s.calls s₀ (F.direction.values lo (F.direction.count lo hi)) t ∧
        F.Leaves code s.calls t w ∧
        ∀ vs t' w', F.Turns code s.calls s₀ vs t' → F.Leaves code s.calls t' w' →
          vs = F.direction.values lo (F.direction.count lo hi) := by
  have hs₀ := hF.begins hbegins
  split
  · rename_i hendless
    have hforever : ∀ n, ∃ t, F.Turns code s.calls s₀ (F.direction.values lo n) t := by
      intro n
      obtain ⟨t, ht, -⟩ := hF.turns hs₀ hhi hpass (n := n) fun i _ => hendless.2 ▸ Direction.holds_last _
      exact ⟨t, ht⟩
    refine ⟨hforever, fun vs t w hturns hleaves => ?_⟩
    -- one turn more than those after which the loop would be left
    obtain ⟨t', ht'⟩ := hforever (vs.length + 1)
    have hle := (hF.prefix_of_leaves ht' hturns hleaves).length_le
    rw [Direction.length_values] at hle
    omega
  · rename_i hends
    obtain ⟨t, ht, hvalue⟩ := hF.turns hs₀ hhi hpass fun i hi => Direction.holds_of_lt_count hi
    obtain ⟨u, w, harrives, hsteps, -⟩ := hF.tested hvalue hhi ht
    rw [Direction.not_holds_count hends] at hsteps
    exact ⟨t, w, ht, ⟨u, harrives, hsteps⟩, fun vs t' w' h' hl' => hF.turns_unique ht ⟨u, harrives, hsteps⟩ h' hl'⟩

/-- A run that comes to an endless loop is never over. -/
theorem Stands.runs_forever {n p : Nat} (hF : F.Stands code) (hstart : StepsTo code n p s F.start u)
    (hbegins : F.Begins code u lo s₀) (hhi : F.Bounded code u.calls s₀ hi)
    (hpass : F.Passable code u.calls s₀) (hendless : F.direction.Endless lo hi) (k : Nat) :
    ∃ q t, runFrom code k p s = (.suspended q, t) := by
  have hcounts := hF.counts hbegins hhi hpass
  rw [if_pos hendless] at hcounts
  obtain ⟨t, hturns⟩ := hcounts.1 (k + 1)
  obtain ⟨i, hi⟩ := hbegins.stepsTo
  obtain ⟨j, hj, hsteps⟩ := hturns.stepsTo
  rw [Direction.length_values] at hj
  exact (hstart.trans (hi.trans hsteps)).suspended (by omega)

end

end LoopPlace

end PascalStack
