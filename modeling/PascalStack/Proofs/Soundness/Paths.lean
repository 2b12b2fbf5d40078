import PascalStack.Proofs.Simulation.Indirect
import PascalStack.Proofs.Soundness.Values

/-!
# Code that keeps to types

The code between two positions is followed with the kinds of the values on the stack.  A slot for a text
holds no text before it is first written, so it is also followed which slots have been written.

* `Setting`          the code of a program, and what is known of its slots, elements and functions;
* `Op.Types`         what an instruction makes of the kinds on the stack;
* `Path`             code that keeps to types from one position to another;
* `Part`, `Part.At`  a piece of code with its labels, and a place in it;
* `Part.At.outcome`  what a step from such a place does.
-/

namespace PascalStack

/-- What is asked of a value at one place of the stack. -/
abbrev Kind := Value → Prop

/-- Values are of the given kinds, one by one. -/
def Fit (Γ : List Kind) (vs : List Value) : Prop := List.Forall₂ (fun K v => K v) Γ vs

section
variable {K : Kind} {Γ Δ : List Kind} {v : Value} {vs ws : List Value}

theorem Fit.cons (hv : K v) (h : Fit Γ vs) : Fit (K :: Γ) (v :: vs) := List.Forall₂.cons hv h

theorem Fit.append (h : Fit Γ vs) (h' : Fit Δ ws) : Fit (Γ ++ Δ) (vs ++ ws) := List.rel_append h h'

theorem fit_replicate (hv : K v) (count : Nat) : Fit (List.replicate count K) (List.replicate count v) := by
  induction count with
  | zero => exact .nil
  | succ count ih => exact ih.cons hv

theorem Fit.uncons (h : Fit (K :: Γ) vs) : ∃ v ws, vs = v :: ws ∧ K v ∧ Fit Γ ws := by
  cases h with
  | cons hv h => exact ⟨_, _, rfl, hv, h⟩

theorem Fit.eq_nil (h : Fit [] vs) : vs = [] := by
  cases h
  rfl

theorem Fit.split (h : Fit (Γ ++ Δ) vs) : ∃ us ws, vs = us ++ ws ∧ Fit Γ us ∧ Fit Δ ws := by
  induction Γ generalizing vs with
  | nil => exact ⟨[], vs, rfl, .nil, h⟩
  | cons K Γ ih =>
    obtain ⟨v, rest, rfl, hv, h⟩ := h.uncons
    obtain ⟨us, ws, rfl, hus, hws⟩ := ih h
    exact ⟨v :: us, ws, rfl, hus.cons hv, hws⟩

end

/-- The code of a program, and what is known of it.

* `fits`      the values that a slot may hold once it has been written;
* `within`    the numbers that an access to an element may find on the stack;
* `entry`     the positions of functions, with the types of their parameters and results;
* `globals`   slots that have been written before any function is called. -/
structure Setting where
  code : Code
  fits : Nat → Value → Prop
  within : Nat → Int64 → Prop
  entry : Nat → List DataType → DataType → Prop
  globals : Nat → Prop

namespace Setting
variable (W : Setting)

/-- Every slot holds a value that it may hold, or zero. -/
def Sorted (m : Memory) : Prop := ∀ n, W.fits n (m.slots n) ∨ m.slots n = .zero

/-- The slots of `R` hold values that they may hold. -/
def Ready (R : Nat → Prop) (m : Memory) : Prop := ∀ n, R n → W.fits n (m.slots n)

/-- No slot is made worse. -/
def Keeps (m m' : Memory) : Prop := ∀ n, W.fits n (m.slots n) → W.fits n (m'.slots n)

/-- An access to an element that is about to be made is one that may be made. -/
def Within (p : Nat) (s : State) : Prop :=
  ∀ op i rest, W.code[p]? = some (.ok op) → op.isIndirect = true → s.stack = .integer i :: rest → W.within p i

/-- A slot that is about to be read holds a value that it may hold. -/
def Reads (p : Nat) (s : State) : Prop :=
  ∀ op slot, W.code[p]? = some (.ok op) → op.reads s.stack = some slot → W.fits slot (s.memory.slots slot)

variable {W} {m m' m'' : Memory} {R : Nat → Prop} {n : Nat} {v : Value}

theorem Keeps.refl (m : Memory) : W.Keeps m m := fun _ h => h

theorem Keeps.trans (h : W.Keeps m m') (h' : W.Keeps m' m'') : W.Keeps m m'' := fun n hn => h' n (h n hn)

theorem Ready.mono (h : W.Ready R m) (hk : W.Keeps m m') : W.Ready R m' := fun n hn => hk n (h n hn)

theorem Sorted.fits (h : W.Sorted m) (hzero : W.fits n .zero) : W.fits n (m.slots n) := by
  rcases h n with hn | hn
  · exact hn
  · rw [hn]
    exact hzero

theorem Keeps.set (m : Memory) (hv : W.fits n v) : W.Keeps m (m.set n v) := by
  intro i hi
  by_cases h : i = n
  · simpa only [Memory.set, h, if_true] using hv
  · simpa only [Memory.set, h, if_false] using hi

theorem Sorted.set (h : W.Sorted m) (hv : W.fits n v) : W.Sorted (m.set n v) := by
  intro i
  by_cases hi : i = n
  · simp only [Memory.set, hi, if_true]
    exact .inl hv
  · simpa only [Memory.set, hi, if_false] using h i

theorem Ready.set (h : W.Ready R m) (hv : W.fits n v) : W.Ready (fun i => i = n ∨ R i) (m.set n v) := by
  rintro i (rfl | hi)
  · simpa only [Memory.set, if_true] using hv
  · exact Keeps.set m hv i (h i hi)

end Setting

/-! ## instructions -/

/-- The value that an instruction pushes, whatever the state. -/
def Op.pushed? : Op Nat → Option Value
  | .pushi n => some (.integer n)
  | .pushf x => some (.real x)
  | .pushs s => some (.string s)
  | .pusha target => some (.address target)
  | _ => none

/-- The instruction at `p` goes on with the next one.  It finds values of the first kinds on top of the stack
and leaves values of the second; the slots of `R` have been written before it. -/
inductive Op.Types (W : Setting) (p : Nat) :
    Op Nat → (R : Nat → Prop) → List Kind → (R' : Nat → Prop) → List Kind → Prop
  | push {op : Op Nat} {u : Value} {K : Kind} {R : Nat → Prop} {Γ : List Kind} :
      op.pushed? = some u → K u → Types W p op R Γ R (K :: Γ)
  | zeros {count : Nat} {R : Nat → Prop} {Γ : List Kind} :
      Types W p (.pushn count) R Γ R (List.replicate count (· = .zero) ++ Γ)
  | load {n : Nat} {K : Kind} {R : Nat → Prop} {Γ : List Kind} : n < maxGlobals →
      (R n ∨ W.fits n .zero) → (∀ v, W.fits n v → K v) → Types W p (.pushg (some n)) R Γ R (K :: Γ)
  | store {n : Nat} {K : Kind} {R : Nat → Prop} {Γ : List Kind} : n < maxGlobals →
      (∀ v, K v → W.fits n v) → Types W p (.storeg (some n)) R (K :: Γ) (fun i => i = n ∨ R i) Γ
  | loadElement {K : Kind} {R : Nat → Prop} {Γ : List Kind} :
      (∀ i, W.within p i → ∃ n : Nat, i.toInt = n ∧ n < maxGlobals ∧ W.fits n .zero ∧ ∀ v, W.fits n v → K v) →
      Types W p (.pushg none) R (DataType.integer.Holds :: Γ) R (K :: Γ)
  | storeElement {K : Kind} {R : Nat → Prop} {Γ : List Kind} :
      (∀ i, W.within p i → ∃ n : Nat, i.toInt = n ∧ n < maxGlobals ∧ ∀ v, K v → W.fits n v) →
      Types W p (.storeg none) R (DataType.integer.Holds :: K :: Γ) R Γ
  | unary {b : Basic} {K K' : Kind} {R : Nat → Prop} {Γ : List Kind} : b.isUnary = true →
      (∀ v, K v → Safely K' (b.unary v)) → Types W p (.basic b) R (K :: Γ) R (K' :: Γ)
  | binary {b : Basic} {K₁ K₂ K' : Kind} {R : Nat → Prop} {Γ : List Kind} : b.isBinary = true →
      (∀ l r, K₁ l → K₂ r → Safely K' (b.binary l r)) →
      Types W p (.basic b) R (K₂ :: K₁ :: Γ) R (K' :: Γ)
  | write {b : Basic} {K : Kind} {R : Nat → Prop} {Γ : List Kind} : b.isWriting = true →
      (∀ v, K v → Safely (fun _ => True) (b.written v)) → Types W p (.basic b) R (K :: Γ) R Γ
  | copy {K : Kind} {R : Nat → Prop} {Γ : List Kind} : Types W p (.dup 1) R (K :: Γ) R (K :: K :: Γ)
  | drop {K : Kind} {R : Nat → Prop} {Γ : List Kind} : Types W p (.pop 1) R (K :: Γ) R Γ
  | read {R : Nat → Prop} {Γ : List Kind} :
      Types W p (.basic .read) R Γ R (DataType.string.Holds :: Γ)
  | newline {R : Nat → Prop} {Γ : List Kind} : Types W p (.basic .writeln) R Γ R Γ
  | start {R : Nat → Prop} {Γ : List Kind} : Types W p (.basic .start) R Γ R Γ

/-- A step goes on with the next instruction and leaves values of some kinds, or stops with a fault that is
expected. -/
def Setting.Advances (W : Setting) (p : Nat) (s : State) (rest : List Value) (R : Nat → Prop) (Γ : List Kind) :
    Prop :=
  (∃ t vs, step W.code p s = (.suspended (p + 1), t) ∧ t.stack = vs ++ rest ∧ Fit Γ vs ∧
    t.calls = s.calls ∧ W.Sorted t.memory ∧ W.Keeps s.memory t.memory ∧ W.Ready R t.memory) ∨
  ∃ f t, step W.code p s = (.failed f, t) ∧ f.Expected

/-- The result of a step of an evaluation: the memory is as good as it was and the slots of `R` have been
written, or the fault is one that is expected. -/
def Setting.Leads (W : Setting) {α : Type} (R : Nat → Prop) (P : α → Prop) (m₀ : Memory) :
    EStateM.Result Halt Memory α → Prop
  | .ok a m => W.Sorted m ∧ W.Keeps m₀ m ∧ W.Ready R m ∧ P a
  | .error (.fault f) _ => f.Expected
  | .error _ _ => False

section
variable {W : Setting} {m : Memory} {R : Nat → Prop} {α : Type} {P : α → Prop}
  (hsorted : W.Sorted m) (hready : W.Ready R m)
include hsorted hready

theorem leads_lift {e : Except Fault α} (h : Safely P e) : W.Leads R P m (Eval.lift e m) := by
  cases e with
  | ok a => exact ⟨hsorted, .refl m, hready, h⟩
  | error f => exact h

theorem leads_load {slot : Nat} {K : Kind} (hslot : slot < maxGlobals) (hK : K (m.slots slot)) :
    W.Leads R K m (Eval.loadSlot .off slot m) := by
  have hoff : Watch.off (.read slot (m.slots slot)) = true := rfl
  rw [Eval.loadSlot_eq, if_pos hslot, if_pos hoff]
  exact ⟨hsorted, .refl m, hready, hK⟩

theorem leads_store {slot : Nat} {v : Value} (hslot : slot < maxGlobals) (hv : W.fits slot v) :
    W.Leads (fun i => i = slot ∨ R i) (fun _ => True) m (Eval.storeSlot slot v m) := by
  unfold Eval.storeSlot Eval.checkSlot
  rw [if_pos hslot]
  exact ⟨hsorted.set hv, .set m hv, hready.set hv, trivial⟩

theorem leads_write {e : Except Fault String} (h : Safely (fun _ => True) e) :
    W.Leads R (fun _ => True) m ((Eval.lift e >>= Eval.write) m) := by
  cases e with
  | ok text => exact ⟨hsorted, .refl m, hready, trivial⟩
  | error f => exact h

theorem leads_readLine : W.Leads R DataType.string.Holds m (Eval.readLine m) := by
  rw [Eval.readLine_eq]
  split
  · exact ⟨hsorted, .refl m, hready, .string _⟩
  · exact .unreadableInput

end

section
variable {W : Setting} {p : Nat} {s : State} {op : Op Nat} {R R' : Nat → Prop} {Γ Γ' Γ₁ : List Kind}
  {vs rest before below : List Value}

/-- What an instruction does, by the step of an evaluation that it follows. -/
theorem advances_of_does {α : Type} {x : Eval α} {after : α → List Value} {P : α → Prop}
    (hop : W.code[p]? = some (.ok op)) (h : op.Does p (p + 1) before x after)
    (hs : s.stack = before ++ (below ++ rest)) (hbelow : Fit Γ below)
    (hx : W.Leads R P s.memory (x s.memory)) (hafter : ∀ a, P a → Fit Γ₁ (after a)) :
    W.Advances p s rest R (Γ₁ ++ Γ) := by
  have hdoes := h s _ hs
  cases hr : x s.memory with
  | ok a m =>
    rw [hr] at hdoes hx
    obtain ⟨t, hexec, hstack, hcalls, rfl⟩ := hdoes
    obtain ⟨hsorted, hkeeps, hready, ha⟩ := hx
    refine .inl ⟨t, after a ++ below, step_of_ok hop hexec, ?_, (hafter a ha).append hbelow, hcalls, hsorted,
      hkeeps, hready⟩
    rw [hstack, List.append_assoc]
  | error e m =>
    rw [hr] at hdoes hx
    cases e with
    | fault f =>
      obtain ⟨_, t, hexec, _⟩ := hdoes
      exact .inr ⟨f, t, step_of_error hop hexec, hx⟩
    | unfinished => exact hx.elim
    | stopped e => exact hx.elim

theorem Setting.Advances.mono (h : W.Advances p s rest R Γ) (hR : ∀ n, R' n → R n) :
    W.Advances p s rest R' Γ := by
  rcases h with ⟨t, vs, hstep, hstack, hfit, hcalls, hsorted, hkeeps, hready⟩ | hfail
  · exact .inl ⟨t, vs, hstep, hstack, hfit, hcalls, hsorted, hkeeps, fun n hn => hready n (hR n hn)⟩
  · exact .inr hfail

theorem does_pushed {u : Value} (h : op.pushed? = some u) : op.Does p (p + 1) [] (pure ()) fun _ => [u] := by
  cases op with
  | pushi n | pushf x | pushs t | pusha a =>
    cases h
    exact does_push rfl
  | _ => cases h

/-- The number of a slot on top of the stack. -/
theorem toSlot_of_toInt {i : Int64} {n : Nat} (name : String) (hi : i.toInt = n) (hn : n < maxGlobals) :
    (Value.integer i).toSlot name = .ok n := by
  have hin : 0 ≤ i.toInt ∧ i.toInt < maxGlobals := by omega
  show (if 0 ≤ i.toInt ∧ i.toInt < maxGlobals then pure i.toInt.toNat
    else throw (.invalidAddress i) : Except Fault Nat) = .ok n
  rw [if_pos hin, hi]
  rfl

/-- **A step of an instruction that keeps to types.** -/
theorem Op.Types.advances (h : op.Types W p R Γ R' Γ') (hop : W.code[p]? = some (.ok op))
    (hsorted : W.Sorted s.memory) (hready : W.Ready R s.memory) (hwithin : W.Within p s)
    (hs : s.stack = vs ++ rest) (hvs : Fit Γ vs) : W.Advances p s rest R' Γ' := by
  have hpure : W.Leads R (fun _ => True) s.memory ((pure () : Eval Unit) s.memory) :=
    ⟨hsorted, .refl _, hready, trivial⟩
  cases h with
  | @push _ u K _ _ hu hK =>
    exact advances_of_does hop (does_pushed hu) hs hvs hpure fun _ _ => .cons hK .nil
  | @zeros count =>
    exact advances_of_does hop (does_pushn count) hs hvs hpure fun _ _ =>
      fit_replicate (K := (· = .zero)) rfl count
  | @load n K _ _ hn hR hK =>
    have hv : W.fits n (s.memory.slots n) := hR.elim (hready n) hsorted.fits
    exact advances_of_does hop (does_pushg .off n) hs hvs (leads_load hsorted hready hn (hK _ hv))
      fun _ hu => .cons hu .nil
  | @store n K _ _ hn hK =>
    obtain ⟨v, ws, rfl, hv, hws⟩ := hvs.uncons
    exact advances_of_does hop (does_storeg n) hs hws (leads_store hsorted hready hn (hK v hv)) fun _ _ => .nil
  | @loadElement K _ Γ hslot =>
    obtain ⟨v, ws, rfl, hv, hws⟩ := hvs.uncons
    obtain ⟨i⟩ := hv
    obtain ⟨n, hi, hn, hzero, hK⟩ := hslot i (hwithin _ i _ hop rfl hs)
    have hdoes := does_pushg_top (p := p) (v := .integer i) .off
    rw [toSlot_of_toInt _ hi hn] at hdoes
    exact advances_of_does hop hdoes hs hws (leads_load hsorted hready hn (hK _ (hsorted.fits hzero)))
      fun _ hu => .cons hu .nil
  | @storeElement K _ Γ hslot =>
    obtain ⟨a, ws, rfl, ha, hws⟩ := hvs.uncons
    obtain ⟨v, ws, rfl, hv, hws⟩ := hws.uncons
    obtain ⟨i⟩ := ha
    obtain ⟨n, hi, hn, hK⟩ := hslot i (hwithin _ i _ hop rfl hs)
    have hdoes := does_storeg_top (p := p) (v := v) (a := .integer i)
    rw [toSlot_of_toInt _ hi hn] at hdoes
    have hadvances := advances_of_does hop hdoes hs hws (leads_store hsorted hready hn (hK v hv)) fun _ _ => .nil
    exact hadvances.mono fun _ hi => .inr hi
  | @unary b K K' _ _ hb hK =>
    obtain ⟨v, ws, rfl, hv, hws⟩ := hvs.uncons
    exact advances_of_does hop (does_unary hb) hs hws (leads_lift hsorted hready (hK v hv))
      fun _ hu => .cons hu .nil
  | @binary b K₁ K₂ K' _ _ hb hK =>
    obtain ⟨r, ws, rfl, hr, hws⟩ := hvs.uncons
    obtain ⟨l, ws, rfl, hl, hws⟩ := hws.uncons
    exact advances_of_does hop (does_binary hb) hs hws (leads_lift hsorted hready (hK l r hl hr))
      fun _ hu => .cons hu .nil
  | @write b K _ _ hb hK =>
    obtain ⟨v, ws, rfl, hv, hws⟩ := hvs.uncons
    exact advances_of_does hop (does_written hb) hs hws (leads_write hsorted hready (hK v hv)) fun _ _ => .nil
  | copy =>
    obtain ⟨v, ws, rfl, hv, hws⟩ := hvs.uncons
    exact advances_of_does hop does_dup hs hws hpure fun _ _ => .cons hv (.cons hv .nil)
  | drop =>
    obtain ⟨v, ws, rfl, hv, hws⟩ := hvs.uncons
    exact advances_of_does hop does_pop hs hws hpure fun _ _ => .nil
  | read =>
    exact advances_of_does hop does_read hs hvs (leads_readLine hsorted hready) fun _ hu => .cons hu .nil
  | newline =>
    have hline : W.Leads R (fun _ => True) s.memory (Eval.write "\n" s.memory) :=
      ⟨hsorted, .refl _, hready, trivial⟩
    exact advances_of_does hop does_writeln hs hvs hline fun _ _ => .nil
  | start => exact advances_of_does hop does_start hs hvs hpure fun _ _ => .nil

/-- What such an instruction reads. -/
theorem Op.Types.reads (h : op.Types W p R Γ R' Γ') (hop : W.code[p]? = some (.ok op))
    (hsorted : W.Sorted s.memory) (hready : W.Ready R s.memory) (hwithin : W.Within p s)
    (hs : s.stack = vs ++ rest) (hvs : Fit Γ vs) : W.Reads p s := by
  intro op' slot hop' hr
  rw [hop] at hop'
  cases hop'
  cases h with
  | load _ hR _ =>
    cases hr
    exact hR.elim (hready _) hsorted.fits
  | loadElement hslot =>
    obtain ⟨v, ws, rfl, hv, hws⟩ := hvs.uncons
    obtain ⟨i⟩ := hv
    obtain ⟨n, hi, hn, hzero, _⟩ := hslot i (hwithin _ i _ hop rfl hs)
    have hr : ((Value.integer i).toSlot "pushg").toOption = some slot := by
      rw [hs] at hr
      exact hr
    rw [toSlot_of_toInt _ hi hn] at hr
    cases hr
    exact hsorted.fits hzero
  | push hu _ => cases op <;> first | cases hr | cases hu
  | _ => cases hr

end

/-! ## paths -/

/-- Code that keeps to types from one position to another.  It jumps only to positions of `J`, with nothing
on the stack and the slots of `F` written.

* `op`        an instruction that goes on with the next one;
* `jump`      nothing is asked of what stands after a jump;
* `branch`    a jump that depends on a value;
* `call`      the arguments of a function are replaced by its result. -/
inductive Path (W : Setting) (J F : Nat → Prop) :
    Nat → (R : Nat → Prop) → List Kind → Nat → (R' : Nat → Prop) → List Kind → Prop
  | refl {p : Nat} {R : Nat → Prop} {Γ : List Kind} : Path W J F p R Γ p R Γ
  | weaken {p q : Nat} {R R₁ R' : Nat → Prop} {Γ Γ' : List Kind} : (∀ n, R₁ n → R n) →
      Path W J F p R₁ Γ q R' Γ' → Path W J F p R Γ q R' Γ'
  | op {p q : Nat} {o : Op Nat} {R R₁ R' : Nat → Prop} {Γ Γ₁ Γ' : List Kind} :
      W.code[p]? = some (.ok o) → o.Types W p R Γ R₁ Γ₁ → Path W J F (p + 1) R₁ Γ₁ q R' Γ' →
      Path W J F p R Γ q R' Γ'
  | jump {p q l : Nat} {R R' : Nat → Prop} {Γ' : List Kind} : W.code[p]? = some (.ok (.jump l)) → J l →
      (∀ n, F n → R n) → Path W J F p R [] q R' Γ'
  | branch {p q l : Nat} {K : Kind} {R R' : Nat → Prop} {Γ' : List Kind} :
      W.code[p]? = some (.ok (.jz l)) → J l → (∀ n, F n → R n) → Path W J F (p + 1) R [] q R' Γ' →
      Path W J F p R [K] q R' Γ'
  | call {p q : Nat} {ts : List DataType} {t : DataType} {K : Kind} {R R' : Nat → Prop} {Γ Γ' : List Kind} :
      W.code[p]? = some (.ok (.basic .call)) → (∀ v, K v → ∃ e, v = .address e ∧ W.entry e ts t) →
      (∀ n, W.globals n → R n) → Path W J F (p + 1) R (t.Holds :: Γ) q R' Γ' →
      Path W J F p R (K :: (ts.reverse.map DataType.Holds ++ Γ)) q R' Γ'

theorem Path.trans {W : Setting} {J F R R₁ R' : Nat → Prop} {p m q : Nat} {Γ Γ₁ Γ' : List Kind}
    (h : Path W J F p R Γ m R₁ Γ₁) (h' : Path W J F m R₁ Γ₁ q R' Γ') : Path W J F p R Γ q R' Γ' := by
  induction h with
  | refl => exact h'
  | weaken hR _ ih => exact .weaken hR (ih h')
  | op hop htypes _ ih => exact .op hop htypes (ih h')
  | jump hop hl hR => exact .jump hop hl hR
  | branch hop hl hR _ ih => exact .branch hop hl hR (ih h')
  | call hop hentry hR _ ih => exact .call hop hentry hR (ih h')

/-- A piece of code: its labels, the slots that have been written wherever a label stands, the position where
it ends, and the kinds of the values that it leaves there. -/
structure Part where
  labels : Nat → Prop
  ready : Nat → Prop
  last : Nat
  result : List Kind

/-- A position in a piece of code, with the memory and the values that the code finds there. -/
def Part.At (W : Setting) (P : Part) (m : Memory) (p : Nat) (vs : List Value) : Prop :=
  ∃ R Γ R', W.Ready R m ∧ Fit Γ vs ∧ Path W P.labels P.ready p R Γ P.last R' P.result

/-- From its labels on, a piece of code keeps to types up to its end. -/
def Part.Sound (W : Setting) (P : Part) : Prop :=
  ∀ l, P.labels l → ∃ R', Path W P.labels P.ready l P.ready [] P.last R' P.result

/-- What a step from a place in a piece of code does: it stays in the code, calls a function or stops with a
fault that is expected. -/
inductive Part.Moves (W : Setting) (P : Part) (p : Nat) (s : State) (rest : List Value) : Prop
  | next {q : Nat} {t : State} {vs : List Value} : step W.code p s = (.suspended q, t) →
      t.stack = vs ++ rest → t.calls = s.calls → W.Sorted t.memory → W.Keeps s.memory t.memory →
      P.At W t.memory q vs → Moves W P p s rest
  | fail {f : Fault} {t : State} : step W.code p s = (.failed f, t) → f.Expected → Moves W P p s rest
  | call {e : Nat} {ts : List DataType} {t : DataType} {arguments vs : List Value} : W.entry e ts t →
      Fit (ts.reverse.map DataType.Holds) arguments → W.Ready W.globals s.memory →
      step W.code p s = (.suspended e, { s with stack := arguments ++ (vs ++ rest), calls := (p + 1) :: s.calls }) →
      (∀ m v, W.Keeps s.memory m → t.Holds v → P.At W m (p + 1) (v :: vs)) → Moves W P p s rest

section
variable {W : Setting} {P : Part} {p : Nat} {s : State} {m m' : Memory} {vs rest : List Value}

/-- Instructions that read no slot. -/
theorem Setting.Reads.of_none {op : Op Nat} (hop : W.code[p]? = some (.ok op)) (h : op.reads s.stack = none) :
    W.Reads p s := by
  intro op' slot hop' hr
  rw [hop] at hop'
  cases hop'
  rw [h] at hr
  cases hr

/-- A step along a path. -/
theorem Path.outcome {J F R R' : Nat → Prop} {q : Nat} {Γ Γ' : List Kind} (h : Path W J F p R Γ q R' Γ')
    (hP : (⟨J, F, q, Γ'⟩ : Part).Sound W) (hsorted : W.Sorted s.memory) (hready : W.Ready R s.memory)
    (hwithin : W.Within p s) (hs : s.stack = vs ++ rest) (hvs : Fit Γ vs) :
    (p = q ∧ Fit Γ' vs) ∨ (W.Reads p s ∧ (⟨J, F, q, Γ'⟩ : Part).Moves W p s rest) := by
  have hjump {R : Nat → Prop} {l : Nat} {t : State} (hready : W.Ready R s.memory) (hl : J l)
      (hF : ∀ n, F n → R n) (hm : t.memory = s.memory) : (⟨J, F, q, Γ'⟩ : Part).At W t.memory l [] := by
    obtain ⟨R', hpath⟩ := hP l hl
    rw [hm]
    exact ⟨F, [], R', fun n hn => hready n (hF n hn), .nil, hpath⟩
  induction h with
  | refl => exact .inl ⟨rfl, hvs⟩
  | weaken hR _ ih => exact ih hP (fun n hn => hready n (hR n hn)) hwithin hvs hjump
  | op hop htypes hrest _ =>
    refine .inr ⟨htypes.reads hop hsorted hready hwithin hs hvs, ?_⟩
    rcases htypes.advances hop hsorted hready hwithin hs hvs with
      ⟨t, ws, hstep, hstack, hws, hcalls, hsorted', hkeeps, hready'⟩ | ⟨f, t, hstep, hf⟩
    · exact .next hstep hstack hcalls hsorted' hkeeps ⟨_, _, _, hready', hws, hrest⟩
    · exact .fail hstep hf
  | @jump p _ l _ _ _ hop hl hF =>
    refine .inr ⟨.of_none hop rfl, ?_⟩
    obtain rfl := hvs.eq_nil
    have hstep : step W.code p s = (.suspended l, s) := step_of_ok hop rfl
    exact .next hstep hs rfl hsorted (.refl _) (hjump hready hl hF rfl)
  | @branch p _ l K _ _ _ hop hl hF hrest _ =>
    refine .inr ⟨.of_none hop rfl, ?_⟩
    obtain ⟨v, ws, rfl, hv, hws⟩ := hvs.uncons
    obtain rfl := hws.eq_nil
    obtain ⟨t, hexec, hstack, hcalls, hm⟩ := does_jz (p := p) (q := l) (v := v) s rest hs
    have hsorted' : W.Sorted t.memory := hm ▸ hsorted
    have hkeeps : W.Keeps s.memory t.memory := hm ▸ .refl _
    refine .next (step_of_ok hop hexec) hstack hcalls hsorted' hkeeps ?_
    split
    · exact ⟨_, _, _, hready.mono hkeeps, .nil, hrest⟩
    · exact hjump hready hl hF hm
  | call hop hentry hglobals hrest _ =>
    refine .inr ⟨.of_none hop rfl, ?_⟩
    obtain ⟨v, ws, rfl, hv, hws⟩ := hvs.uncons
    obtain ⟨arguments, ws, rfl, harguments, hws⟩ := hws.split
    obtain ⟨e, rfl, he⟩ := hentry v hv
    have hstack : s.stack = .address e :: (arguments ++ (ws ++ rest)) := by
      rw [hs, List.cons_append, List.append_assoc]
    refine .call he harguments (fun n hn => hready n (hglobals n hn)) (step_of_ok hop (exec_call hstack)) ?_
    exact fun m v hk hv => ⟨_, _, _, hready.mono hk, hws.cons hv, hrest⟩

/-- **A step from a place in a piece of code.** -/
theorem Part.At.outcome (h : P.At W s.memory p vs) (hP : P.Sound W) (hsorted : W.Sorted s.memory)
    (hwithin : W.Within p s) (hs : s.stack = vs ++ rest) :
    (p = P.last ∧ Fit P.result vs) ∨ (W.Reads p s ∧ P.Moves W p s rest) := by
  obtain ⟨R, Γ, R', hready, hvs, hpath⟩ := h
  exact hpath.outcome hP hsorted hready hwithin hs hvs

end

end PascalStack
