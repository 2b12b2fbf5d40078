import PascalStack.Proofs.Machine.Effects

/-!
# Activations in a run

Code is cut into parts that control leaves only by calls and returns.

* `Op.Stays`, `Closed`   such a part, with the slots that it writes, `Closed.step`;
* `RunsThrough`          a run whose positions and states all have a property, `Reaches` any run;
* `Frames`               the current position and the return addresses above those of a caller;
* `Frames.runs`          until it returns, an activation is in its own part;
* `Frames.stays`         while a call is running, slots that are not written stay as they are;
* `CallsFrom`, `ReturnsAt`   calls in a run and how they come back, `call_returns`.
-/

namespace PascalStack

def IsCall (code : Code) (p : Nat) : Prop := code[p]? = some (.ok (.basic .call))

/-- The instruction `op` at `p` goes on inside of `In`, writes only slots of `W` and calls only what
stands at `entry`. -/
def Op.Stays (code : Code) (In W entry : Nat → Prop) (p : Nat) : Op Nat → Prop
  | .storeg slot => (∃ n, slot = some n ∧ W n) ∧ In (p + 1)
  | .jump target => In target ∧ ¬ IsCall code target
  | .jz target => (In target ∧ ¬ IsCall code target) ∧ In (p + 1)
  | .basic .call =>
    (∃ e before, p = before + 1 ∧ code[before]? = some (.ok (.pusha e)) ∧ entry e) ∧ In (p + 1)
  | .basic .ret | .basic .stop => True
  | _ => In (p + 1)

/-- A part of code that control leaves only by calls and returns. -/
def Closed (code : Code) (In W entry : Nat → Prop) : Prop :=
  ∀ p op, In p → code[p]? = some (.ok op) → op.Stays code In W entry p

/-- Where a call stands, the address of a function is on top of the stack. -/
def Ready (code : Code) (entry : Nat → Prop) (p : Nat) (s : State) : Prop :=
  IsCall code p → ∃ e, entry e ∧ s.stack.head? = some (.address e)

section
variable {code : Code} {In W entry : Nat → Prop} {p p' q : Nat} {s s' t : State} {op : Op Nat}

theorem Ready.of_not_isCall (h : ¬ IsCall code p) : Ready code entry p s := fun hc => absurd hc h

/-- A call follows the instruction that pushes the address of its function. -/
theorem Closed.pusha_of_isCall (hc : Closed code In W entry) (hin : In (p + 1))
    (hop : code[p]? = some (.ok op)) (hcall : IsCall code (p + 1)) : ∃ e, entry e ∧ op = .pusha e := by
  obtain ⟨⟨e, before, hbefore, hpush, he⟩, -⟩ := hc (p + 1) _ hin hcall
  cases hbefore
  rw [hop] at hpush
  cases hpush
  exact ⟨e, he, rfl⟩

theorem Closed.ready_next (hc : Closed code In W entry) (hin : In (p + 1))
    (hop : code[p]? = some (.ok op)) (h : ∀ e, op = .pusha e → s'.stack.head? = some (.address e)) :
    Ready code entry (p + 1) s' := by
  intro hcall
  obtain ⟨e, he, rfl⟩ := hc.pusha_of_isCall hin hop hcall
  exact ⟨e, he, h e rfl⟩

theorem not_isCall_next (hc : Closed code In W entry) (hin : In (p + 1)) (hcall : IsCall code p) :
    ¬ IsCall code (p + 1) := by
  intro h
  obtain ⟨e, -, he⟩ := hc.pusha_of_isCall hin hcall h
  cases he

/-- What one step in a closed part of code does to the return stack and to the slots. -/
theorem Closed.step (hc : Closed code In W entry) (hin : In p) (hready : Ready code entry p s)
    (h : step code p s = (.suspended p', s')) :
    (s'.calls = s.calls ∧ In p' ∧ Ready code entry p' s' ∧
      ∀ n, ¬ W n → s'.memory.slots n = s.memory.slots n) ∨
    (s'.calls = (p + 1) :: s.calls ∧ In (p + 1) ∧ ¬ IsCall code (p + 1) ∧ entry p' ∧
      s'.globals = s.globals) ∨
    (s.calls = p' :: s'.calls ∧ s'.globals = s.globals) := by
  obtain ⟨op, hop, hexec⟩ := step_eq_suspended h
  have hstays := hc p op hin hop
  have hslots : s'.globals = s.globals → ∀ n, ¬ W n → s'.memory.slots n = s.memory.slots n := by
    intro hglobals n _
    unfold State.memory
    rw [hglobals]
  by_cases hplain : op.isPlain = true
  · obtain ⟨rfl, hglobals, hcalls⟩ := exec_of_isPlain hplain hexec
    have hnext : In (p + 1) := by
      cases op with
      | storeg _ | jump _ | jz _ => cases hplain
      | basic b =>
        cases b with
        | call | ret | stop => cases hplain
        | _ => exact hstays
      | _ => exact hstays
    refine .inl ⟨hcalls, hnext, hc.ready_next hnext hop ?_, hslots hglobals⟩
    rintro e rfl
    rw [exec_pusha hexec]
    rfl
  · cases op with
    | storeg slot =>
      obtain ⟨⟨n, rfl, hn⟩, hnext⟩ := hstays
      obtain ⟨rfl, hcalls, hstore⟩ := exec_storeg hexec
      refine .inl ⟨hcalls, hnext, hc.ready_next hnext hop nofun, fun k hk => hstore k ?_⟩
      rintro rfl
      exact hk hn
    | jump target =>
      obtain ⟨rfl, rfl⟩ := exec_jump hexec
      exact .inl ⟨rfl, hstays.1, .of_not_isCall hstays.2, fun _ _ => rfl⟩
    | jz target =>
      obtain ⟨hgoto, hglobals, hcalls⟩ := exec_jz hexec
      rcases hgoto with rfl | rfl
      · exact .inl ⟨hcalls, hstays.1.1, .of_not_isCall hstays.1.2, hslots hglobals⟩
      · exact .inl ⟨hcalls, hstays.2, hc.ready_next hstays.2 hop nofun, hslots hglobals⟩
    | basic b =>
      cases b with
      | call =>
        obtain ⟨haddress, hglobals, hcalls⟩ := exec_call_eq hexec
        obtain ⟨e, he, htop⟩ := hready hop
        rw [haddress] at htop
        cases htop
        exact .inr (.inl ⟨hcalls, hstays.2, not_isCall_next hc hstays.2 hop, he, hglobals⟩)
      | ret =>
        obtain ⟨hcalls, hglobals⟩ := exec_ret_eq hexec
        exact .inr (.inr ⟨hcalls, hglobals⟩)
      | stop => cases hexec
      | _ => exact absurd rfl hplain
    | _ => exact absurd rfl hplain

end

/-! ## runs -/

/-- A run whose positions and states all have a property. -/
inductive RunsThrough (code : Code) (P : Nat → State → Prop) : Nat → State → Nat → State → Prop
  | refl {p : Nat} {s : State} : P p s → RunsThrough code P p s p s
  | step {p p' q : Nat} {s s' t : State} : P p s → step code p s = (.suspended p', s') →
      RunsThrough code P p' s' q t → RunsThrough code P p s q t

theorem RunsThrough.first {code : Code} {P : Nat → State → Prop} {p q : Nat} {s t : State}
    (h : RunsThrough code P p s q t) : P p s := by
  cases h with
  | refl h => exact h
  | step h _ _ => exact h

theorem RunsThrough.mono {code : Code} {P Q : Nat → State → Prop} {p q : Nat} {s t : State}
    (h : RunsThrough code P p s q t) (hPQ : ∀ p s, P p s → Q p s) : RunsThrough code Q p s q t := by
  induction h with
  | refl hP => exact .refl (hPQ _ _ hP)
  | step hP hstep _ ih => exact .step (hPQ _ _ hP) hstep ih

def Reaches (code : Code) (p : Nat) (s : State) (q : Nat) (t : State) : Prop :=
  RunsThrough code (fun _ _ => True) p s q t

section
variable {code : Code} {p q r : Nat} {s t u : State}

theorem Reaches.refl : Reaches code p s p s := RunsThrough.refl trivial

theorem Reaches.cons (h : step code p s = (.suspended q, t)) (ht : Reaches code q t r u) :
    Reaches code p s r u :=
  RunsThrough.step trivial h ht

theorem Reaches.trans (h : Reaches code p s q t) (h' : Reaches code q t r u) : Reaches code p s r u := by
  induction h with
  | refl _ => exact h'
  | step _ hstep _ ih => exact .cons hstep (ih h')

theorem Reaches.runFrom (h : Reaches code p s q t) :
    ∃ k, ∀ j, PascalStack.runFrom code (k + j) p s = PascalStack.runFrom code j q t := by
  induction h with
  | refl _ => exact ⟨0, fun j => by rw [Nat.zero_add]⟩
  | step _ hstep _ ih =>
    obtain ⟨k, hk⟩ := ih
    refine ⟨k + 1, fun j => ?_⟩
    rw [Nat.add_right_comm, PascalStack.runFrom, hstep]
    exact hk j

end

/-- The current position and the return addresses above `base`: `f` is that of an activation in the part
`Own`, and all above it are in `In`. -/
structure Frames (code : Code) (entry Own In : Nat → Prop) (base : List Nat) (p : Nat) (s : State)
    (above : List Nat) (f : Nat) : Prop where
  stack : p :: s.calls = above ++ f :: base
  own : Own f
  inside : ∀ g ∈ above, In g
  returns : ∀ g ∈ (above ++ [f]).tail, ¬ IsCall code g
  ready : Ready code entry p s

section
variable (code : Code)

/-- In a run on an input, an activation of the function at `entry` makes a call at `q` in the state `t`:
since the function was entered it has not returned, and what it had called has. -/
structure CallsFrom (input : List UInt8) (entry q : Nat) (t : State) : Prop where
  call : IsCall code q
  active : ∃ s, RunsThrough code (fun _ _ => True) 0 (.initial input) entry s ∧
    RunsThrough code (fun _ u => s.calls.length ≤ u.calls.length) entry s q t ∧
    t.calls.length = s.calls.length

/-- The call at `q` in the state `t` has returned when the run comes to `q'` in the state `t'`; between
them the run went only through positions of `P`. -/
def ReturnsAt (P : Nat → Prop) (q : Nat) (t : State) (q' : Nat) (t' : State) : Prop :=
  ∃ e s p u, step code q t = (.suspended e, s) ∧
    RunsThrough code (fun p u => t.calls.length < u.calls.length ∧ P p) e s p u ∧
    step code p u = (.suspended q', t') ∧ t'.calls.length = t.calls.length

end

section
variable {code : Code} {entry Own In W : Nat → Prop} {base above : List Nat} {p p' q f g : Nat}
  {s s' t : State}

/-- A step above an activation. -/
theorem Frames.step_above (hc : Closed code In W entry) (hentry : ∀ e, entry e → ¬ IsCall code e)
    (henter : entry p' → s.calls.length < s'.calls.length → In p')
    (h : Frames code entry Own In base p s (g :: above) f)
    (hstep : step code p s = (.suspended p', s')) :
    (∃ above', Frames code entry Own In base p' s' above' f) ∧
      ∀ n, ¬ W n → s'.memory.slots n = s.memory.slots n := by
  obtain ⟨hstack, hown, hinside, hreturns, hready⟩ := h
  obtain ⟨rfl, hcalls⟩ := List.cons.inj hstack
  have hp : In p := hinside p (List.mem_cons_self ..)
  have habove : ∀ g ∈ above, In g := fun g hg => hinside g (List.mem_cons_of_mem _ hg)
  have hreturns : ∀ g ∈ above ++ [f], ¬ IsCall code g := hreturns
  rcases hc.step hp hready hstep with ⟨hcalls', hin, hready', hslots⟩ |
    ⟨hcalls', hin, hnot, he, hglobals⟩ | ⟨hcalls', hglobals⟩
  · refine ⟨⟨p' :: above, ?_, hown, List.forall_mem_cons.mpr ⟨hin, habove⟩, hreturns, hready'⟩, hslots⟩
    rw [hcalls', hcalls]
    rfl
  · refine ⟨⟨p' :: (p + 1) :: above, ?_, hown, ?_, ?_, .of_not_isCall (hentry p' he)⟩, fun n _ => ?_⟩
    · rw [hcalls', hcalls]
      rfl
    · have hdeeper : s.calls.length < s'.calls.length := hcalls' ▸ Nat.lt_succ_self _
      exact List.forall_mem_cons.mpr ⟨henter he hdeeper, List.forall_mem_cons.mpr ⟨hin, habove⟩⟩
    · exact List.forall_mem_cons.mpr ⟨hnot, hreturns⟩
    · unfold State.memory
      rw [hglobals]
  · have hstack' : p' :: s'.calls = above ++ f :: base := hcalls'.symm.trans hcalls
    have hnot : ¬ IsCall code p' := by
      refine hreturns p' ?_
      have hmem : (above ++ f :: base).head? = some p' := by rw [← hstack']; rfl
      cases above with
      | nil =>
        cases hmem
        exact List.mem_singleton_self _
      | cons a above =>
        cases hmem
        exact List.mem_cons_self ..
    refine ⟨⟨above, hstack', hown, habove, fun g hg => ?_, .of_not_isCall hnot⟩, fun n _ => ?_⟩
    · exact hreturns g (List.mem_of_mem_tail hg)
    · unfold State.memory
      rw [hglobals]

/-- A step of an activation itself. -/
theorem Frames.step_own (hc : Closed code Own W entry) (hentry : ∀ e, entry e → ¬ IsCall code e)
    (henter : entry p' → In p') (h : Frames code entry Own In base p s [] f)
    (hstep : step code p s = (.suspended p', s')) (hdepth : base.length ≤ s'.calls.length) :
    ∃ above' f', Frames code entry Own In base p' s' above' f' := by
  obtain ⟨hstack, hown, -, -, hready⟩ := h
  obtain ⟨rfl, hcalls⟩ := List.cons.inj hstack
  rcases hc.step hown hready hstep with ⟨hcalls', hin, hready', -⟩ | ⟨hcalls', hin, hnot, he, -⟩ |
    ⟨hcalls', -⟩
  · refine ⟨[], p', ?_, hin, nofun, nofun, hready'⟩
    rw [hcalls', hcalls]
    rfl
  · refine ⟨[p'], p + 1, ?_, hin, ?_, ?_, .of_not_isCall (hentry p' he)⟩
    · rw [hcalls', hcalls]
      rfl
    · exact List.forall_mem_cons.mpr ⟨henter he, nofun⟩
    · exact List.forall_mem_cons.mpr ⟨hnot, nofun⟩
  · have hlength := congrArg List.length (hcalls'.symm.trans hcalls)
    rw [List.length_cons] at hlength
    omega

/-- As long as an activation has not returned, its address or the current position is in its own part. -/
theorem Frames.runs {W' : Nat → Prop} (hown : Closed code Own W entry) (hin : Closed code In W' entry)
    (hentry : ∀ e, entry e → In e ∧ ¬ IsCall code e)
    (hrun : RunsThrough code (fun _ s => base.length ≤ s.calls.length) p s q t)
    (h : Frames code entry Own In base p s above f) :
    ∃ above' f', Frames code entry Own In base q t above' f' := by
  induction hrun generalizing above f with
  | refl _ => exact ⟨above, f, h⟩
  | step _ hstep hrest ih =>
    cases above with
    | nil =>
      obtain ⟨above', f', h'⟩ := h.step_own hown (fun e he => (hentry e he).2)
        (fun he => (hentry _ he).1) hstep hrest.first
      exact ih h'
    | cons g above =>
      obtain ⟨⟨above', h'⟩, -⟩ := h.step_above hin (fun e he => (hentry e he).2)
        (fun he _ => (hentry _ he).1) hstep
      exact ih h'

/-- While a call is running, the slots that are not written stay as they are. -/
theorem Frames.stays {avoid : Nat} (hin : Closed code In W entry)
    (hentry : ∀ e, entry e → (e ≠ avoid → In e) ∧ ¬ IsCall code e)
    (hrun : RunsThrough code (fun p s => base.length < s.calls.length ∧ p ≠ avoid) p s q t)
    (h : Frames code entry Own In base p s above f) :
    (∃ g above', Frames code entry Own In base q t (g :: above') f) ∧
      ∀ n, ¬ W n → t.memory.slots n = s.memory.slots n := by
  -- the return stack is longer than that of the caller, so there is something above it
  have hcons : ∀ {p s above}, base.length < s.calls.length → Frames code entry Own In base p s above f →
      ∃ g above', above = g :: above' := by
    intro p s above hlt h
    cases above with
    | nil =>
      have hlength := congrArg List.length (List.cons.inj h.stack).2
      omega
    | cons g above => exact ⟨g, above, rfl⟩
  induction hrun generalizing above with
  | refl hP =>
    obtain ⟨g, above', rfl⟩ := hcons hP.1 h
    exact ⟨⟨g, above', h⟩, fun _ _ => rfl⟩
  | step hP hstep hrest ih =>
    obtain ⟨g, above', rfl⟩ := hcons hP.1 h
    obtain ⟨⟨above'', h'⟩, hslots⟩ := h.step_above hin (fun e he => (hentry e he).2)
      (fun he _ => (hentry _ he).1 hrest.first.2) hstep
    obtain ⟨hframes, hslots'⟩ := ih h'
    exact ⟨hframes, fun n hn => (hslots' n hn).trans (hslots n hn)⟩

/-- If the return stack is as long as that of an activation, it is the activation that runs. -/
theorem Frames.eq_of_length (h : Frames code entry Own In base p s above f)
    (hlength : s.calls.length = base.length) : above = [] ∧ p = f := by
  have hsame := congrArg List.length h.stack
  simp only [List.length_cons, List.length_append] at hsame
  have hnil : above = [] := List.eq_nil_of_length_eq_zero (by omega)
  subst hnil
  exact ⟨rfl, (List.cons.inj h.stack).1⟩

/-- A call comes back to where it was made, with the slots that are not written as they were. -/
theorem call_returns {All W₁ W₂ : Nat → Prop} {input : List UInt8} {a q' : Nat} {t' : State}
    (hown : Closed code Own W₁ entry) (hall : Closed code All W₂ entry) (hin : Closed code In W entry)
    (hentry : ∀ e, entry e → All e ∧ (e ≠ a → In e) ∧ ¬ IsCall code e) (ha : Own a)
    (hfirst : ¬ IsCall code a) (hcall : CallsFrom code input a q t)
    (hreturn : ReturnsAt code (· ≠ a) q t q' t') :
    q' = q + 1 ∧ ∀ n, ¬ W n → t'.memory.slots n = t.memory.slots n := by
  obtain ⟨-, s, -, hrun, hdepth⟩ := hcall
  have hstart : Frames code entry Own All s.calls a s [] a :=
    ⟨rfl, ha, nofun, nofun, .of_not_isCall hfirst⟩
  obtain ⟨above, f, hq⟩ := hstart.runs hown hall (fun e he => ⟨(hentry e he).1, (hentry e he).2.2⟩) hrun
  obtain ⟨-, rfl⟩ := hq.eq_of_length hdepth
  obtain ⟨e, u, p, v, hstep, hrunning, hlast, hback⟩ := hreturn
  have hdeeper := hrunning.first.1
  rcases hown.step hq.own hq.ready hstep with ⟨hcalls, -⟩ | ⟨hcalls, hnext, hnot, he, hglobals⟩ | ⟨hcalls, -⟩
  · rw [hcalls] at hdeeper
    exact absurd hdeeper (Nat.lt_irrefl _)
  · have hcallee : Frames code entry Own In t.calls e u [e] (q + 1) := by
      refine ⟨by rw [hcalls]; rfl, hnext, ?_, ?_, .of_not_isCall (hentry e he).2.2⟩
      · exact List.forall_mem_cons.mpr ⟨(hentry e he).2.1 hrunning.first.2, nofun⟩
      · exact List.forall_mem_cons.mpr ⟨hnot, nofun⟩
    obtain ⟨⟨g, above', hp⟩, hslots⟩ := hcallee.stays hin (fun e he => (hentry e he).2) hrunning
    have hp' := congrArg List.length hp.stack
    simp only [List.length_cons, List.length_append] at hp'
    obtain ⟨⟨above'', hq'⟩, hslots'⟩ := hp.step_above hin (fun e he => (hentry e he).2.2)
      (fun _ hlt => absurd hlt (by omega)) hlast
    refine ⟨(hq'.eq_of_length hback).2, fun n hn => (hslots' n hn).trans ((hslots n hn).trans ?_)⟩
    unfold State.memory
    rw [hglobals]
  · rw [hcalls, List.length_cons] at hdeeper
    omega

end

end PascalStack
