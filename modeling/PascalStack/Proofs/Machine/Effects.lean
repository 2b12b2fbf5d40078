import PascalStack.Proofs.Machine.Instructions
import PascalStack.Machine.Run

/-!
# What steps leave alone

* `Exec.Keeps`      computations that leave the global slots and the return stack as they are;
* `Op.isPlain`      instructions that go on with the next one and write no slot, `step_plain`;
* `step_storeg`, `step_jump`, `step_jz`, `step_call`, `step_ret`   the others.
-/

namespace PascalStack

namespace Exec
variable {α β : Type}

/-- Leaves the global slots and the return stack as they are. -/
def Keeps (x : Exec α) : Prop := ∀ s a t, x s = .ok a t → t.globals = s.globals ∧ t.calls = s.calls

theorem Keeps.bind {x : Exec α} {f : α → Exec β} (hx : Keeps x) (hf : ∀ a, Keeps (f a)) :
    Keeps (x >>= f) := by
  intro s b u h
  obtain ⟨a, t, hxa, hfa⟩ := EStateM.bind_eq_ok.mp h
  obtain ⟨hglobals, hcalls⟩ := hx s a t hxa
  obtain ⟨hglobals', hcalls'⟩ := hf a t b u hfa
  exact ⟨hglobals'.trans hglobals, hcalls'.trans hcalls⟩

theorem Keeps.pure (a : α) : Keeps (Pure.pure a) := by
  intro s b t h
  cases h
  exact ⟨rfl, rfl⟩

theorem Keeps.throw (f : Fault) : Keeps (throw f : Exec α) := nofun

theorem Keeps.get : Keeps (get : Exec State) := by
  intro s b t h
  cases h
  exact ⟨rfl, rfl⟩

theorem Keeps.modify {f : State → State}
    (hf : ∀ s, (f s).globals = s.globals ∧ (f s).calls = s.calls) : Keeps (modify f) := by
  intro s b t h
  cases h
  exact hf s

theorem keeps_push (v : Value) : Keeps (push v) := .modify fun _ => ⟨rfl, rfl⟩

theorem keeps_write (text : String) : Keeps (write text) := .modify fun _ => ⟨rfl, rfl⟩

theorem keeps_pop (instruction : String) : Keeps (pop instruction) := by
  refine Keeps.get.bind fun s => ?_
  split
  · exact Keeps.bind (.modify fun _ => ⟨rfl, rfl⟩) fun _ => .pure _
  · exact .throw _

theorem keeps_checked (e : Except Fault α) : Keeps (checked e) := by
  cases e with
  | ok a => exact .pure a
  | error f => exact .throw f

theorem keeps_popInteger (instruction : String) : Keeps (popInteger instruction) := by
  refine (keeps_pop instruction).bind fun v => ?_
  cases v <;> first | exact .pure _ | exact .throw _

theorem keeps_popReal (instruction : String) : Keeps (popReal instruction) := by
  refine (keeps_pop instruction).bind fun v => ?_
  cases v <;> first | exact .pure _ | exact .throw _

theorem keeps_popString (instruction : String) : Keeps (popString instruction) := by
  refine (keeps_pop instruction).bind fun v => ?_
  cases v <;> first | exact .pure _ | exact .throw _

theorem keeps_popSlot (instruction : String) : Keeps (popSlot instruction) := by
  refine (keeps_popInteger instruction).bind fun n => ?_
  split
  · exact .pure _
  · exact .throw _

theorem keeps_slotOr (slot : Option Nat) (instruction : String) : Keeps (slotOr slot instruction) := by
  cases slot with
  | some n => exact .pure n
  | none => exact keeps_popSlot instruction

theorem keeps_checkSlot (slot : Nat) : Keeps (checkSlot slot) := by
  unfold checkSlot
  split
  · exact .pure _
  · exact .throw _

theorem keeps_loadGlobal (slot : Nat) : Keeps (loadGlobal slot) :=
  (keeps_checkSlot slot).bind fun _ => Keeps.get.bind fun _ => .pure _

theorem keeps_top (count : Nat) (instruction : String) : Keeps (top count instruction) := by
  refine Keeps.get.bind fun s => ?_
  dsimp only
  split
  · exact (Keeps.throw _).bind fun _ => .pure _
  · exact .pure _

theorem keeps_duplicate (count : Nat) (instruction : String) : Keeps (duplicate count instruction) :=
  (keeps_top count instruction).bind fun _ => .modify fun _ => ⟨rfl, rfl⟩

theorem keeps_discard (count : Nat) (instruction : String) : Keeps (discard count instruction) :=
  (keeps_top count instruction).bind fun _ => .modify fun _ => ⟨rfl, rfl⟩

theorem keeps_readLine : Keeps readLine := by
  refine Keeps.get.bind fun s => ?_
  dsimp only
  refine Keeps.bind (.modify fun _ => ⟨rfl, rfl⟩) fun _ => ?_
  split
  · exact .pure _
  · exact .throw _

end Exec

open Exec

/-- Instructions without an operand work on the operand stack, the input and the output. -/
theorem Basic.keeps_execPlain (b : Basic) : Keeps b.execPlain := by
  cases b with
  | call | ret | start | stop | nop => exact .pure ()
  | arith o =>
    exact (keeps_popInteger _).bind fun _ => (keeps_popInteger _).bind fun _ =>
      (keeps_checked _).bind fun _ => keeps_push _
  | realArith o =>
    exact (keeps_popReal _).bind fun _ => (keeps_popReal _).bind fun _ =>
      (keeps_checked _).bind fun _ => keeps_push _
  | order o => exact (keeps_popInteger _).bind fun _ => (keeps_popInteger _).bind fun _ => keeps_push _
  | realOrder o => exact (keeps_popReal _).bind fun _ => (keeps_popReal _).bind fun _ => keeps_push _
  | itof | ftoi => exact (keeps_popReal _).bind fun _ => keeps_push _
  | equal | and | or => exact (keeps_pop _).bind fun _ => (keeps_pop _).bind fun _ => keeps_push _
  | not => exact (keeps_pop _).bind fun _ => keeps_push _
  | writei => exact (keeps_popInteger _).bind fun _ => keeps_write _
  | writef => exact (keeps_popReal _).bind fun _ => keeps_write _
  | writes => exact (keeps_popString _).bind fun _ => keeps_write _
  | writechr =>
    refine (keeps_popInteger _).bind fun code => ?_
    split
    · exact keeps_write _
    · exact .throw _
  | writeln => exact keeps_write _
  | read => exact keeps_readLine.bind fun _ => keeps_push _
  | atoi | atof =>
    refine (keeps_popString _).bind fun text => ?_
    split
    · exact keeps_push _
    · exact .throw _
  | strlen => exact (keeps_popString _).bind fun _ => keeps_push _
  | charat =>
    refine (keeps_popInteger _).bind fun index => (keeps_popString _).bind fun text => ?_
    split
    · exact keeps_push _
    · exact .throw _

/-- Goes on with the next instruction and leaves the global slots and the return stack as they are. -/
def Op.isPlain : Op Nat → Bool
  | .storeg _ | .jump _ | .jz _ | .basic .call | .basic .ret | .basic .stop => false
  | _ => true

section
variable {code : Code} {p q : Nat} {s t : State}

/-- A step runs the instruction at a position. -/
theorem step_eq_suspended (h : step code p s = (.suspended q, t)) :
    ∃ op, code[p]? = some (.ok op) ∧ op.exec p s = .ok (.goto q) t := by
  unfold step at h
  split at h
  · cases h
  · cases h
  · rename_i op hop
    refine ⟨op, hop, ?_⟩
    split at h
    · rename_i next s' hexec
      cases h
      exact hexec
    · cases h
    · cases h

/-- The end of an instruction that goes on with the next one. -/
theorem goto_next {α : Type} {x : Exec α} (hx : Keeps x)
    (h : (x >>= fun _ => pure (.goto (p + 1)) : Exec Flow) s = .ok (.goto q) t) :
    q = p + 1 ∧ t.globals = s.globals ∧ t.calls = s.calls := by
  obtain ⟨a, u, hxa, hu⟩ := EStateM.bind_eq_ok.mp h
  cases hu
  exact ⟨rfl, hx s a t hxa⟩

theorem exec_of_isPlain {op : Op Nat} (hplain : op.isPlain = true) (h : op.exec p s = .ok (.goto q) t) :
    q = p + 1 ∧ t.globals = s.globals ∧ t.calls = s.calls := by
  cases op with
  | pushi n => exact goto_next (keeps_push _) h
  | pushf x => exact goto_next (keeps_push _) h
  | pushs text => exact goto_next (keeps_push _) h
  | pusha target => exact goto_next (keeps_push _) h
  | pushn count =>
    have hkeeps : Keeps (modify fun s => { s with stack := List.replicate count .zero ++ s.stack }) :=
      .modify fun _ => ⟨rfl, rfl⟩
    exact goto_next hkeeps h
  | pushg slot =>
    refine goto_next (x := slotOr slot (Op.pushg slot : Op Nat).name >>= fun n => loadGlobal n >>= fun v => push v) ?_ ?_
    · exact (keeps_slotOr _ _).bind fun _ => (keeps_loadGlobal _).bind fun _ => keeps_push _
    · simp only [bind_assoc]
      exact h
  | load offset =>
    refine goto_next (x := popSlot (Op.load offset : Op Nat).name >>= fun n => loadGlobal (n + offset) >>= fun v => push v) ?_ ?_
    · exact (keeps_popSlot _).bind fun _ => (keeps_loadGlobal _).bind fun _ => keeps_push _
    · simp only [bind_assoc]
      exact h
  | pop count => exact goto_next (keeps_discard _ _) h
  | dup count => exact goto_next (keeps_duplicate _ _) h
  | storeg slot | jump target | jz target => cases hplain
  | basic b =>
    cases b with
    | call | ret | stop => cases hplain
    | _ => exact goto_next (Basic.keeps_execPlain _) h

theorem exec_pusha {target : Nat} (h : (Op.pusha target).exec p s = .ok (.goto q) t) :
    t.stack = .address target :: s.stack := by
  cases h
  rfl

/-- Only the slot of the instruction is written. -/
theorem exec_storeg {slot : Nat} (h : (Op.storeg (some slot)).exec p s = .ok (.goto q) t) :
    q = p + 1 ∧ t.calls = s.calls ∧ ∀ n, n ≠ slot → t.memory.slots n = s.memory.slots n := by
  obtain ⟨_, s₁, hslot, h⟩ := EStateM.bind_eq_ok.mp h
  cases hslot
  obtain ⟨v, s₁, hpop, h⟩ := EStateM.bind_eq_ok.mp h
  obtain ⟨hglobals, hcalls⟩ := keeps_pop _ _ _ _ hpop
  obtain ⟨_, s₂, hstore, h⟩ := EStateM.bind_eq_ok.mp h
  cases h
  obtain ⟨_, s₂, hcheck, h⟩ := EStateM.bind_eq_ok.mp hstore
  obtain ⟨hglobals', hcalls'⟩ := keeps_checkSlot _ _ _ _ hcheck
  cases h
  refine ⟨rfl, hcalls'.trans hcalls, fun n hn => ?_⟩
  refine getElem?_store.trans ?_
  rw [if_neg hn, hglobals', hglobals]
  rfl

theorem exec_jump {target : Nat} (h : (Op.jump target).exec p s = .ok (.goto q) t) :
    q = target ∧ t = s := by
  cases h
  exact ⟨rfl, rfl⟩

theorem exec_jz {target : Nat} (h : (Op.jz target).exec p s = .ok (.goto q) t) :
    (q = target ∨ q = p + 1) ∧ t.globals = s.globals ∧ t.calls = s.calls := by
  obtain ⟨v, s₁, hpop, h⟩ := EStateM.bind_eq_ok.mp h
  cases h
  refine ⟨?_, keeps_pop _ _ _ _ hpop⟩
  split
  · exact .inl rfl
  · exact .inr rfl

/-- A call goes to the address on the operand stack and leaves a return address. -/
theorem exec_call_eq (h : (Op.basic .call).exec p s = .ok (.goto q) t) :
    s.stack.head? = some (.address q) ∧ t.globals = s.globals ∧ t.calls = (p + 1) :: s.calls := by
  obtain ⟨stack, globals, calls, input, output⟩ := s
  match stack, h with
  | .address a :: rest, h =>
    cases h
    exact ⟨rfl, rfl, rfl⟩

/-- A return goes to the last return address and takes it away. -/
theorem exec_ret_eq (h : (Op.basic .ret).exec p s = .ok (.goto q) t) :
    s.calls = q :: t.calls ∧ t.globals = s.globals := by
  obtain ⟨stack, globals, calls, input, output⟩ := s
  match calls, h with
  | back :: rest, h =>
    cases h
    exact ⟨rfl, rfl⟩

end

end PascalStack
