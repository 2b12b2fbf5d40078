import PascalStack.Proofs.Machine.Instructions

/-!
# Runs of code and evaluations

* `Visit`        what holds wherever a run comes by;
* `Steps`        so many steps of a run;
* `Follows`      a run follows the result of an evaluation;
* `Computes`     a piece of code does what an evaluation does, with rules for its parts;
* `Placed`       lines of code stand in an image.
-/

namespace PascalStack

def Op.reads (op : Op Nat) (stack : List Value) : Option Nat :=
  match op with
  | .pushg (some slot) => some slot
  | .pushg none => stack.head?.bind fun v => (v.toSlot op.name).toOption
  | .load offset => (stack.head?.bind fun v => (v.toSlot op.name).toOption).map (· + offset)
  | _ => none

/-- Where a run comes by, a call finds the address that the instruction before it has pushed, and what
is read from a slot is let through. -/
structure Visit (code : Code) (w : Watch) (p : Nat) (s : State) : Prop where
  call : code[p]? = some (.ok (.basic .call)) →
    ∃ a rest, s.stack = .address a :: rest ∧ 0 < p ∧ code[p - 1]? = some (.ok (.pusha a))
  read : ∀ op slot, code[p]? = some (.ok op) → op.reads s.stack = some slot → slot < maxGlobals →
    w (.read slot (s.memory.slots slot)) = true

section
variable (code : Code) (w : Watch)

inductive Steps : Nat → Nat → State → Nat → State → Prop
  | refl (p : Nat) (s : State) : Steps 0 p s p s
  | step {k p q r : Nat} {s t u : State} : Visit code w p s → step code p s = (.suspended q, t) →
      Steps k q t r u → Steps (k + 1) p s r u

/-- A run from `p` follows the result of an evaluation: it comes to where `Q` holds, it stops with the
same fault, or it makes at least `n` steps if the evaluation was not finished.  An evaluation is stopped only
at what is not let through. -/
def Follows {α : Type} (n p : Nat) (s : State) (r : EStateM.Result Halt Memory α)
    (Q : α → Nat → State → Prop) : Prop :=
  match r with
  | .ok a m => ∃ k q t, Steps code w k p s q t ∧ t.memory = m ∧ Q a q t
  | .error (.fault f) m => f.isRegular = true ∧ ∃ k q t u, Steps code w k p s q t ∧
      Visit code w q t ∧ step code q t = (.failed f, u) ∧ u.memory = m
  | .error .unfinished _ => ∃ k q t, n ≤ k ∧ Steps code w k p s q t
  | .error (.stopped e) _ => w e = false

/-- The code from `p` to `q` does what `x` does, with `after` on top of the stack in the place of
`before`. -/
def Computes {α : Type} (n p q : Nat) (before : List Value) (x : Eval α) (after : α → List Value) :
    Prop :=
  ∀ s rest, s.stack = before ++ rest →
    Follows code w n p s (x s.memory) fun a q' t =>
      q' = q ∧ t.stack = after a ++ rest ∧ t.calls = s.calls

end

section
variable {code : Code} {w : Watch} {α β : Type} {n k j p q r : Nat} {s t u : State}

/-! ## steps -/

theorem Steps.trans (a : Steps code w k p s q t) (b : Steps code w j q t r u) :
    Steps code w (k + j) p s r u := by
  induction a with
  | refl => rwa [Nat.zero_add]
  | step hv hs _ ih =>
    rw [Nat.succ_add]
    exact .step hv hs (ih b)

/-- After its first steps a run goes on from where they lead. -/
theorem Steps.runFrom (h : Steps code w k p s q t) (j : Nat) :
    runFrom code (k + j) p s = runFrom code j q t := by
  induction h with
  | refl => rw [Nat.zero_add]
  | step hv hs _ ih =>
    rw [Nat.succ_add, PascalStack.runFrom, hs]
    exact ih

/-! ## following -/

theorem Follows.prepend {r : EStateM.Result Halt Memory α} {Q : α → Nat → State → Prop}
    (hs : Steps code w k p s q t) (h : Follows code w n q t r Q) :
    Follows code w (n + k) p s r Q := by
  cases r with
  | ok a m =>
    obtain ⟨j, q', t', hsteps, hm, hQ⟩ := h
    exact ⟨_, q', t', hs.trans hsteps, hm, hQ⟩
  | error e m =>
    cases e with
    | fault f =>
      obtain ⟨hreg, j, q', t', u, hsteps, hfail⟩ := h
      exact ⟨hreg, _, q', t', u, hs.trans hsteps, hfail⟩
    | unfinished =>
      obtain ⟨j, q', t', hj, hsteps⟩ := h
      exact ⟨_, q', t', by omega, hs.trans hsteps⟩
    | stopped e => exact h

theorem Follows.mono {r : EStateM.Result Halt Memory α} {Q Q' : α → Nat → State → Prop} {n' : Nat}
    (h : Follows code w n p s r Q) (hn : n' ≤ n) (hQ : ∀ a q t, Q a q t → Q' a q t) :
    Follows code w n' p s r Q' := by
  cases r with
  | ok a m =>
    obtain ⟨j, q', t', hsteps, hm, hq⟩ := h
    exact ⟨j, q', t', hsteps, hm, hQ a q' t' hq⟩
  | error e m =>
    cases e with
    | fault f => exact h
    | unfinished =>
      obtain ⟨j, q', t', hj, hsteps⟩ := h
      exact ⟨j, q', t', Nat.le_trans hn hj, hsteps⟩
    | stopped e => exact h

theorem Follows.bind {x : Eval α} {f : α → Eval β} {Q : α → Nat → State → Prop}
    {R : β → Nat → State → Prop} (h : Follows code w n p s (x s.memory) Q)
    (hf : ∀ a q t, x s.memory = .ok a t.memory → Q a q t → Follows code w n q t (f a t.memory) R) :
    Follows code w n p s ((x >>= f) s.memory) R := by
  cases hx : x s.memory with
  | ok a m =>
    rw [hx] at h
    obtain ⟨j, q', t', hsteps, rfl, hq⟩ := h
    rw [EStateM.bind_of_ok hx]
    exact (Follows.prepend hsteps (hf a q' t' hx hq)).mono (Nat.le_add_right n j) fun _ _ _ h => h
  | error e m =>
    rw [hx] at h
    rw [EStateM.bind_of_error hx]
    cases e with
    | fault f => exact h
    | unfinished => exact h
    | stopped e => exact h

/-- A run makes some more steps that leave the memory as it is. -/
theorem Follows.extend {r : EStateM.Result Halt Memory α} {Q R : α → Nat → State → Prop}
    (h : Follows code w n p s r Q)
    (hQ : ∀ a q t, Q a q t → ∃ k q' t', Steps code w k q t q' t' ∧ t'.memory = t.memory ∧ R a q' t') :
    Follows code w n p s r R := by
  cases r with
  | ok a m =>
    obtain ⟨j, q, t, hsteps, hm, hq⟩ := h
    obtain ⟨k, q', t', hmore, hm', hR⟩ := hQ a q t hq
    exact ⟨_, q', t', hsteps.trans hmore, hm'.trans hm, hR⟩
  | error e m =>
    cases e with
    | fault f => exact h
    | unfinished => exact h
    | stopped e => exact h

/-! ## rules for code -/

variable {before : List Value} {x : Eval α} {after : α → List Value}

theorem Computes.pure (a : α) : Computes code w n p p (after a) (Pure.pure a) after :=
  fun s _ hs => ⟨0, p, s, .refl p s, rfl, rfl, hs, rfl⟩

theorem Computes.value (v : Value) : Computes code w n p p [v] (Pure.pure v) fun u => [u] :=
  @Computes.pure code w _ n p (fun u => [u]) v

theorem Computes.bind_of_ok {f : α → Eval β} {after' : β → List Value}
    (hx : Computes code w n p q before x after)
    (hf : ∀ a, (∃ m m', x m = .ok a m') → Computes code w n q r (after a) (f a) after') :
    Computes code w n p r before (x >>= f) after' := by
  intro s rest hs
  refine Follows.bind (hx s rest hs) ?_
  rintro a q' t hok ⟨rfl, hstack, hcalls⟩
  refine (hf a ⟨_, _, hok⟩ t rest hstack).mono (Nat.le_refl n) ?_
  rintro b q'' u ⟨hq, hstack', hcalls'⟩
  exact ⟨hq, hstack', hcalls'.trans hcalls⟩

theorem Computes.bind {f : α → Eval β} {after' : β → List Value}
    (hx : Computes code w n p q before x after)
    (hf : ∀ a, Computes code w n q r (after a) (f a) after') :
    Computes code w n p r before (x >>= f) after' :=
  hx.bind_of_ok fun a _ => hf a

/-- What lies deeper in the stack stays. -/
theorem Computes.frame (h : Computes code w n p q before x after) (below : List Value) :
    Computes code w n p q (before ++ below) x fun a => after a ++ below := by
  intro s rest hs
  rw [List.append_assoc] at hs
  refine (h s (below ++ rest) hs).mono (Nat.le_refl n) ?_
  rintro a q' t ⟨hq, hstack, hcalls⟩
  exact ⟨hq, by rw [hstack, List.append_assoc], hcalls⟩

/-- An event that is watched for takes no code. -/
theorem Computes.note (e : Event) :
    Computes code w n p p before (Eval.note w e) fun _ => before := by
  intro s rest hs
  unfold Eval.note
  split
  · exact ⟨0, p, s, .refl p s, rfl, rfl, hs, rfl⟩
  · rename_i hw
    exact Bool.eq_false_iff.mpr hw

theorem Computes.typed {x : Eval Value} {after : Value → List Value} (t : DataType)
    (h : Computes code w n p q before x after) :
    Computes code w n p q before (Eval.typed w t x) after :=
  h.bind fun v => (Computes.note _).bind fun _ => .pure v

/-! ## single instructions -/

theorem step_of_ok {op : Op Nat} (hop : code[p]? = some (.ok op)) (h : op.exec p s = .ok (.goto q) t) :
    step code p s = (.suspended q, t) := by
  unfold step
  rw [hop]
  simp only [h]

theorem step_of_error {op : Op Nat} {f : Fault} (hop : code[p]? = some (.ok op))
    (h : op.exec p s = .error f t) : step code p s = (.failed f, t) := by
  unfold step
  rw [hop]
  simp only [h]

/-- A step that does what an evaluation does. -/
theorem Op.Does.step {op : Op Nat} {a : α} {before rest : List Value} {x : Eval α} {after : α → List Value}
    {m : Memory} (h : op.Does p q before x after) (hop : code[p]? = some (.ok op))
    (hs : s.stack = before ++ rest) (hx : x s.memory = .ok a m) :
    ∃ t, PascalStack.step code p s = (.suspended q, t) ∧ t.stack = after a ++ rest ∧ t.calls = s.calls ∧
      t.memory = m := by
  have hdoes := h s rest hs
  rw [hx] at hdoes
  obtain ⟨t, hexec, hstack, hcalls, hmemory⟩ := hdoes
  exact ⟨t, step_of_ok hop hexec, hstack, hcalls, hmemory⟩

/-- Instructions that read no slot and call no function. -/
def Op.isQuiet : Op Nat → Bool
  | .pushg _ | .load _ | .basic .call => false
  | _ => true

theorem Visit.of_quiet {op : Op Nat} (hop : code[p]? = some (.ok op)) (hq : op.isQuiet = true) :
    Visit code w p s := by
  refine ⟨fun hcall => ?_, fun op' slot hop' hr _ => ?_⟩
  · rw [hop] at hcall
    cases hcall
    cases hq
  · rw [hop] at hop'
    cases hop'
    have hnone : op.reads s.stack = none := by
      cases op <;> first | rfl | cases hq
    rw [hnone] at hr
    cases hr

theorem Computes.of_does {op : Op Nat} (hop : code[p]? = some (.ok op))
    (hvisit : ∀ s rest a m, s.stack = before ++ rest → x s.memory = .ok a m → Visit code w p s)
    (hfault : ∀ s rest f m, s.stack = before ++ rest → x s.memory = .error (.fault f) m →
      Visit code w p s)
    (hstop : ∀ (s : State) rest e m, s.stack = before ++ rest → x s.memory = .error (.stopped e) m →
      w e = false)
    (h : op.Does p q before x after) : Computes code w n p q before x after := by
  intro s rest hs
  have hdoes := h s rest hs
  cases hx : x s.memory with
  | ok a m =>
    rw [hx] at hdoes
    obtain ⟨t, hexec, hstack, hcalls, hmem⟩ := hdoes
    exact ⟨1, q, t, .step (hvisit s rest a m hs hx) (step_of_ok hop hexec) (.refl q t), hmem, rfl, hstack,
      hcalls⟩
  | error e m =>
    rw [hx] at hdoes
    cases e with
    | fault f =>
      obtain ⟨hreg, t, hexec, hmem⟩ := hdoes
      exact ⟨hreg, 0, p, s, t, .refl p s, hfault s rest f m hs hx, step_of_error hop hexec, hmem⟩
    | unfinished => exact hdoes.elim
    | stopped e => exact hstop s rest e m hs hx

theorem Computes.of_quiet {op : Op Nat} (hop : code[p]? = some (.ok op)) (hq : op.isQuiet = true)
    (h : op.Does p q before x after) : Computes code w n p q before x after := by
  refine .of_does hop (fun _ _ _ _ _ _ => .of_quiet hop hq) (fun _ _ _ _ _ _ => .of_quiet hop hq)
    (fun s rest e m hs hx => ?_) h
  have hdoes := h s rest hs
  rw [hx] at hdoes
  obtain ⟨slot, rfl⟩ := hdoes
  cases hq

theorem Eval.loadSlot_stopped {slot : Nat} {m m' : Memory} {e : Event}
    (h : Eval.loadSlot w slot m = .error (.stopped e) m') : w e = false := by
  rw [Eval.loadSlot_eq] at h
  split at h
  · split at h
    · cases h
    · rename_i hw
      cases h
      exact Bool.eq_false_iff.mpr hw
  · cases h

theorem Computes.pushg {slot : Nat} (hop : code[p]? = some (.ok (.pushg (some slot)))) :
    Computes code w n p (p + 1) [] (Eval.loadSlot w slot) fun v => [v] := by
  have hvisit : ∀ s : State, (slot < maxGlobals → w (.read slot (s.memory.slots slot)) = true) →
      Visit code w p s := by
    intro s hw
    refine ⟨fun hcall => ?_, fun op' slot' hop' hr hlt => ?_⟩
    · rw [hop] at hcall
      cases hcall
    · rw [hop] at hop'
      cases hop'
      cases hr
      exact hw hlt
  refine .of_does hop (fun s _ a m _ hx => hvisit s fun hlt => ?_) (fun s _ f m _ hx => hvisit s fun hlt => ?_)
    (fun s _ e m _ hx => Eval.loadSlot_stopped hx) (does_pushg w slot)
  · rw [Eval.loadSlot_eq, if_pos hlt] at hx
    split at hx
    · assumption
    · cases hx
  · rw [Eval.loadSlot_eq, if_pos hlt] at hx
    split at hx <;> cases hx

theorem Computes.pushg_top {v : Value} (hop : code[p]? = some (.ok (.pushg none))) :
    Computes code w n p (p + 1) [v] (Eval.lift (v.toSlot "pushg") >>= Eval.loadSlot w) fun u => [u] := by
  have hvisit : ∀ s rest, s.stack = v :: rest → (∀ slot, v.toSlot "pushg" = .ok slot → slot < maxGlobals →
      w (.read slot (s.memory.slots slot)) = true) → Visit code w p s := by
    intro s rest hs hw
    refine ⟨fun hcall => ?_, fun op' slot' hop' hr hlt => ?_⟩
    · rw [hop] at hcall
      cases hcall
    · rw [hop] at hop'
      cases hop'
      have hr : (v.toSlot "pushg").toOption = some slot' := by
        rw [hs] at hr
        exact hr
      cases hv : v.toSlot "pushg" with
      | ok slot =>
        rw [hv] at hr
        cases hr
        exact hw _ hv hlt
      | error f =>
        rw [hv] at hr
        cases hr
  refine .of_does hop (fun s rest a m hs hx => hvisit s rest hs fun slot hv hlt => ?_)
    (fun s rest f m hs hx => hvisit s rest hs fun slot hv hlt => ?_) (fun s rest e m hs hx => ?_)
    (does_pushg_top w)
  · rw [hv] at hx
    have hx : Eval.loadSlot w slot s.memory = .ok a m := hx
    rw [Eval.loadSlot_eq, if_pos hlt] at hx
    split at hx
    · assumption
    · cases hx
  · rw [hv] at hx
    have hx : Eval.loadSlot w slot s.memory = .error (.fault f) m := hx
    rw [Eval.loadSlot_eq, if_pos hlt] at hx
    split at hx <;> cases hx
  · cases hv : v.toSlot "pushg" with
    | ok slot =>
      rw [hv] at hx
      exact Eval.loadSlot_stopped hx
    | error f =>
      rw [hv] at hx
      cases hx

/-! ## calls -/

theorem exec_call {a : Nat} {rest : List Value} (hs : s.stack = .address a :: rest) :
    (Op.basic .call).exec p s = .ok (.goto a) { s with stack := rest, calls := (p + 1) :: s.calls } := by
  obtain ⟨stack, globals, calls, input, output⟩ := s
  cases hs
  rfl

theorem exec_ret {back : Nat} {rest : List Nat} (hs : s.calls = back :: rest) :
    (Op.basic .ret).exec p s = .ok (.goto back) { s with calls := rest } := by
  obtain ⟨stack, globals, calls, input, output⟩ := s
  cases hs
  rfl

/-- A call: the code of the function comes back to where it was called from. -/
theorem Computes.call {v : Eval Value} {a back : Nat}
    (hpush : code[p]? = some (.ok (.pusha a))) (hcall : code[p + 1]? = some (.ok (.basic .call)))
    (hret : code[back]? = some (.ok (.basic .ret)))
    (h : Computes code w n a back before v fun u => [u]) :
    Computes code w (n + 1) p (p + 2) before v fun u => [u] := by
  intro s rest hs
  have hsteps : Steps code w 2 p s a { s with calls := (p + 2) :: s.calls } := by
    have hexec : (Op.pusha a : Op Nat).exec p s =
        .ok (.goto (p + 1)) { s with stack := .address a :: s.stack } := rfl
    refine .step (.of_quiet hpush rfl) (step_of_ok hpush hexec) (.step ?_ (step_of_ok hcall (exec_call rfl)) (.refl _ _))
    refine ⟨fun _ => ⟨a, _, rfl, Nat.succ_pos p, hpush⟩, fun op slot hop hr _ => ?_⟩
    rw [hcall] at hop
    cases hop
    cases hr
  have hbody : Follows code w n a { s with calls := (p + 2) :: s.calls } (v s.memory) fun u q' t =>
      q' = p + 2 ∧ t.stack = [u] ++ rest ∧ t.calls = s.calls := by
    refine (h { s with calls := (p + 2) :: s.calls } rest hs).extend ?_
    rintro u q' t ⟨rfl, hstack, hcalls⟩
    refine ⟨1, p + 2, { t with calls := s.calls }, ?_, rfl, rfl, hstack, rfl⟩
    exact .step (.of_quiet hret rfl) (step_of_ok hret (exec_ret hcalls)) (.refl _ _)
  exact (Follows.prepend hsteps hbody).mono (by omega) fun _ _ _ h => h

end

end PascalStack
