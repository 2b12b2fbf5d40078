import PascalStack.Proofs.Semantics.Memory

/-!
# What instructions do to a state

* `State.memory`        the memory of a state;
* `Op.Does`             an instruction does what a step of an evaluation does;
* `does_unary`, `does_binary`, `does_written`   instructions that work on values;
* `does_pushg`, `does_storeg`, `does_read`, ... instructions that work on the memory.
-/

namespace PascalStack

/-- What an evaluation can see of a state. -/
def State.memory (s : State) : Memory := ⟨fun i => s.globals[i]?.getD .zero, s.input, s.output⟩

/-- The faults that come from values and from the input. -/
def Fault.isRegular : Fault → Bool
  | .typeError _ _ | .divisionByZero | .invalidAddress _ | .stringIndex _ _ | .unreadableInput => true
  | _ => false

namespace EStateM
variable {ε σ α β : Type} {x : EStateM ε σ α} {f : α → EStateM ε σ β} {s t : σ} {a : α} {e : ε}

theorem bind_of_ok (h : x s = .ok a t) : (x >>= f) s = f a t := by
  show EStateM.bind x f s = _
  unfold EStateM.bind
  rw [h]

theorem bind_of_error (h : x s = .error e t) : (x >>= f) s = .error e t := by
  show EStateM.bind x f s = _
  unfold EStateM.bind
  rw [h]

theorem bind_eq_ok {b : β} {u : σ} :
    (x >>= f) s = .ok b u ↔ ∃ a t, x s = .ok a t ∧ f a t = .ok b u := by
  constructor
  · intro h
    cases hx : x s with
    | ok a t =>
      rw [bind_of_ok hx] at h
      exact ⟨a, t, rfl, h⟩
    | error e t =>
      rw [bind_of_error hx] at h
      cases h
  · rintro ⟨a, t, hx, hf⟩
    rw [bind_of_ok hx]
    exact hf

theorem bind_of_eq {y : EStateM ε σ α} (h : x s = y t) : (x >>= f) s = (y >>= f) t := by
  show EStateM.bind x f s = EStateM.bind y f t
  unfold EStateM.bind
  rw [h]

end EStateM

/-- The instruction at `p`, with `before` on top of the stack, does what the step `x` of an evaluation
does; it goes on at `q` with `after` in the place of `before`. -/
def Op.Does {α : Type} (op : Op Nat) (p q : Nat) (before : List Value) (x : Eval α)
    (after : α → List Value) : Prop :=
  ∀ s rest, s.stack = before ++ rest →
    match x s.memory with
    | .ok a m => ∃ t, op.exec p s = .ok (.goto q) t ∧ t.stack = after a ++ rest ∧
        t.calls = s.calls ∧ t.memory = m
    | .error (.fault f) m => f.isRegular = true ∧ ∃ t, op.exec p s = .error f t ∧ t.memory = m
    | .error .unfinished _ => False
    | .error (.stopped _) _ => ∃ slot, op = .pushg slot

namespace Basic

def isUnary : Basic → Bool
  | itof | ftoi | not | atoi | atof | strlen => true
  | _ => false

def isBinary : Basic → Bool
  | arith _ | realArith _ | order _ | realOrder _ | equal | and | or | charat => true
  | _ => false

def isWriting : Basic → Bool
  | writei | writef | writes | writechr => true
  | _ => false

end Basic

/-! ## values off the stack -/

namespace Exec
variable {v : Value} {instruction : String} {s : State} {rest : List Value}

theorem pop_of_cons (h : s.stack = v :: rest) :
    pop instruction s = .ok v { s with stack := rest } := by
  obtain ⟨stack, globals, calls, input, output⟩ := s
  cases h
  rfl

/-- A value off the stack, read as a number or a text. -/
theorem popInteger_of_cons (h : s.stack = v :: rest) :
    popInteger instruction s = checked (v.toInteger instruction) { s with stack := rest } := by
  unfold popInteger
  rw [EStateM.bind_of_ok (pop_of_cons h)]
  cases v <;> rfl

theorem popReal_of_cons (h : s.stack = v :: rest) :
    popReal instruction s = checked (v.toReal instruction) { s with stack := rest } := by
  unfold popReal
  rw [EStateM.bind_of_ok (pop_of_cons h)]
  cases v <;> rfl

theorem popString_of_cons (h : s.stack = v :: rest) :
    popString instruction s = checked (v.toText instruction) { s with stack := rest } := by
  unfold popString
  rw [EStateM.bind_of_ok (pop_of_cons h)]
  cases v <;> rfl

theorem popSlot_of_cons (h : s.stack = v :: rest) :
    popSlot instruction s = checked (v.toSlot instruction) { s with stack := rest } := by
  unfold popSlot Value.toSlot
  cases hv : v.toInteger instruction with
  | ok n =>
    have hpop : popInteger instruction s = .ok n { s with stack := rest } := by
      rw [popInteger_of_cons h, hv]
      rfl
    rw [EStateM.bind_of_ok hpop]
    show (if _ then _ else _ : Exec Nat) _ = checked (if _ then _ else _) _
    split <;> rfl
  | error f =>
    have hpop : popInteger instruction s = .error f { s with stack := rest } := by
      rw [popInteger_of_cons h, hv]
      rfl
    rw [EStateM.bind_of_error hpop]
    rfl

end Exec

/-! ## instructions that work on values -/

section
open Exec
variable {b : Basic} {op : Op Nat} {p q : Nat} {v l r : Value} {before rest : List Value} {s : State}

theorem Value.toInteger_regular {name : String} {f : Fault} (h : v.toInteger name = .error f) :
    f.isRegular = true := by
  cases v <;> cases h <;> rfl

theorem Value.toReal_regular {name : String} {f : Fault} (h : v.toReal name = .error f) :
    f.isRegular = true := by
  cases v <;> cases h <;> rfl

theorem Value.toText_regular {name : String} {f : Fault} (h : v.toText name = .error f) :
    f.isRegular = true := by
  cases v <;> cases h <;> rfl

/-- The result of an instruction that computes something or faults. -/
def Leaves {β : Type} (s : State) (done : β → State) (r : EStateM.Result Fault State Unit) :
    Except Fault β → Prop
  | .ok b => r = .ok () (done b)
  | .error f => f.isRegular = true ∧ ∃ stack, r = .error f { s with stack := stack }

/-- An instruction takes a value off the stack and goes on with what it has read. -/
theorem Leaves.of_pop {α β : Type} {done : β → State} {x : Exec α} {f : α → Exec Unit}
    {e : Except Fault α} {g : α → Except Fault β} (hx : x s = checked e { s with stack := rest })
    (hreg : ∀ f, e = .error f → f.isRegular = true)
    (hf : ∀ a, e = .ok a → Leaves s done (f a { s with stack := rest }) (g a)) :
    Leaves s done ((x >>= f) s) (e >>= g) := by
  cases e with
  | ok a =>
    rw [EStateM.bind_of_ok (show x s = .ok a _ from hx)]
    exact hf a rfl
  | error f =>
    rw [EStateM.bind_of_error (show x s = .error f _ from hx)]
    exact ⟨hreg f rfl, rest, rfl⟩

/-- The state with a value in the place of those that an instruction took. -/
def State.pushed (s : State) (rest : List Value) (u : Value) : State := { s with stack := u :: rest }

/-- An instruction pushes what it has computed. -/
theorem Leaves.of_checked {α : Type} {e : Except Fault α} {g : α → Value}
    (hreg : ∀ f, e = .error f → f.isRegular = true) :
    Leaves s (s.pushed rest) ((checked e >>= fun a => push (g a)) { s with stack := rest })
      (e >>= fun a => pure (g a)) := by
  cases e with
  | ok a => exact rfl
  | error f => exact ⟨hreg f rfl, rest, rfl⟩

theorem Leaves.of_pushed (u : Value) :
    Leaves s (s.pushed rest) (push u { s with stack := rest }) (.ok u) := rfl

/-- Goes on with the next instruction. -/
def Basic.isPlain : Basic → Bool
  | call | ret | stop => false
  | _ => true

theorem exec_plain (hb : b.isPlain = true) :
    (Op.basic b).exec p = (b.execPlain >>= fun _ => pure (.goto (p + 1))) := by
  cases b <;> first | rfl | cases hb

theorem does_of_leaves (hb : b.isPlain = true) {e : Except Fault Value}
    (h : ∀ s rest, s.stack = before ++ rest → Leaves s (s.pushed rest) (b.execPlain s) e) :
    (Op.basic b).Does p (p + 1) before (Eval.lift e) fun u => [u] := by
  intro s rest hs
  have hl := h s rest hs
  rw [exec_plain hb]
  cases e with
  | ok u => exact ⟨_, EStateM.bind_of_ok hl, rfl, rfl, rfl⟩
  | error f =>
    obtain ⟨hreg, stack, he⟩ := hl
    exact ⟨hreg, _, EStateM.bind_of_error he, rfl⟩

theorem does_unary (hb : b.isUnary = true) :
    (Op.basic b).Does p (p + 1) [v] (Eval.lift (b.unary v)) fun u => [u] := by
  refine does_of_leaves (by cases b <;> first | rfl | cases hb) fun s rest hs => ?_
  cases b with
  | itof => exact .of_pop (popReal_of_cons hs) (fun _ => Value.toReal_regular) fun a _ => .of_pushed _
  | ftoi => exact .of_pop (popReal_of_cons hs) (fun _ => Value.toReal_regular) fun a _ => .of_pushed _
  | strlen => exact .of_pop (popString_of_cons hs) (fun _ => Value.toText_regular) fun a _ => .of_pushed _
  | not => exact EStateM.bind_of_ok (pop_of_cons hs)
  | atoi =>
    refine .of_pop (popString_of_cons hs) (fun _ => Value.toText_regular) fun text _ => ?_
    cases h : signed? (Text.trim text.toList) with
    | some n => exact rfl
    | none => exact ⟨rfl, _, rfl⟩
  | atof =>
    refine .of_pop (popString_of_cons hs) (fun _ => Value.toText_regular) fun text _ => ?_
    cases h : Double.read? (Text.trim text.toList) with
    | some n => exact rfl
    | none => exact ⟨rfl, _, rfl⟩
  | _ => cases hb

theorem Arith.eval_regular {o : Arith} {a b : Int64} {f : Fault} (h : o.eval a b = .error f) :
    f.isRegular = true := by
  cases o with
  | div =>
    rw [Arith.eval] at h
    split at h <;> cases h
    rfl
  | mod =>
    rw [Arith.eval] at h
    split at h <;> cases h
    rfl
  | _ => cases h

theorem RealArith.eval_regular {o : RealArith} {a b : Float} {f : Fault} (h : o.eval a b = .error f) :
    f.isRegular = true := by
  cases o with
  | div =>
    rw [RealArith.eval] at h
    split at h <;> cases h
    rfl
  | _ => cases h

theorem does_binary (hb : b.isBinary = true) :
    (Op.basic b).Does p (p + 1) [r, l] (Eval.lift (b.binary l r)) fun u => [u] := by
  refine does_of_leaves (by cases b <;> first | rfl | cases hb) fun s rest hs => ?_
  cases b with
  | arith o =>
    refine .of_pop (popInteger_of_cons hs) (fun _ => Value.toInteger_regular) fun y _ => ?_
    refine .of_pop (popInteger_of_cons rfl) (fun _ => Value.toInteger_regular) fun x _ => ?_
    exact .of_checked fun _ => Arith.eval_regular
  | realArith o =>
    refine .of_pop (popReal_of_cons hs) (fun _ => Value.toReal_regular) fun y _ => ?_
    refine .of_pop (popReal_of_cons rfl) (fun _ => Value.toReal_regular) fun x _ => ?_
    exact .of_checked fun _ => RealArith.eval_regular
  | order o =>
    refine .of_pop (popInteger_of_cons hs) (fun _ => Value.toInteger_regular) fun y _ => ?_
    exact .of_pop (popInteger_of_cons rfl) (fun _ => Value.toInteger_regular) fun x _ => .of_pushed _
  | realOrder o =>
    refine .of_pop (popReal_of_cons hs) (fun _ => Value.toReal_regular) fun y _ => ?_
    exact .of_pop (popReal_of_cons rfl) (fun _ => Value.toReal_regular) fun x _ => .of_pushed _
  | equal => exact EStateM.bind_of_ok (pop_of_cons hs)
  | and => exact EStateM.bind_of_ok (pop_of_cons hs)
  | or => exact EStateM.bind_of_ok (pop_of_cons hs)
  | charat =>
    refine .of_pop (popInteger_of_cons hs) (fun _ => Value.toInteger_regular) fun index _ => ?_
    refine .of_pop (popString_of_cons rfl) (fun _ => Value.toText_regular) fun text _ => ?_
    cases h : charAt? text index with
    | some c => exact rfl
    | none => exact ⟨rfl, _, rfl⟩
  | _ => cases hb

theorem does_pure {after : List Value}
    (h : ∀ s rest, s.stack = before ++ rest →
      op.exec p s = .ok (.goto q) { s with stack := after ++ rest }) :
    op.Does p q before (pure ()) fun _ => after :=
  fun s rest hs => ⟨_, h s rest hs, rfl, rfl, rfl⟩

theorem does_push {u : Value} (h : op.exec p = (push u >>= fun _ => pure (.goto (p + 1)))) :
    op.Does p (p + 1) [] (pure ()) fun _ => [u] := by
  refine does_pure fun s rest hs => ?_
  obtain ⟨stack, globals, calls, input, output⟩ := s
  cases hs
  rw [h]
  rfl

theorem does_pop : (Op.pop 1).Does p (p + 1) [v] (pure ()) fun _ => [] := by
  refine does_pure fun s rest hs => ?_
  obtain ⟨stack, globals, calls, input, output⟩ := s
  cases hs
  rfl

theorem does_dup : (Op.dup 1).Does p (p + 1) [v] (pure ()) fun _ => [v, v] := by
  refine does_pure fun s rest hs => ?_
  obtain ⟨stack, globals, calls, input, output⟩ := s
  cases hs
  rfl

theorem does_pushn (count : Nat) :
    (Op.pushn count).Does p (p + 1) [] (pure ()) fun _ => List.replicate count .zero := by
  refine does_pure fun s rest hs => ?_
  obtain ⟨stack, globals, calls, input, output⟩ := s
  cases hs
  rfl

theorem does_jump : (Op.jump q).Does p q before (pure ()) fun _ => before := by
  refine does_pure fun s rest hs => ?_
  obtain ⟨stack, globals, calls, input, output⟩ := s
  cases hs
  rfl

theorem does_jz :
    (Op.jz q).Does p (if v.isTrue then p + 1 else q) [v] (pure ()) fun _ => [] := by
  refine does_pure fun s rest hs => ?_
  obtain ⟨stack, globals, calls, input, output⟩ := s
  cases hs
  cases hv : v.isTrue with
  | true => exact congrArg (fun c => EStateM.Result.ok (branch (!c) q p) _) hv
  | false => exact congrArg (fun c => EStateM.Result.ok (branch (!c) q p) _) hv

theorem does_start : (Op.basic .start).Does p (p + 1) [] (pure ()) fun _ => [] := by
  refine does_pure fun s rest hs => ?_
  obtain ⟨stack, globals, calls, input, output⟩ := s
  cases hs
  rfl

theorem does_writeln : (Op.basic .writeln).Does p (p + 1) [] (Eval.write "\n") fun _ => [] :=
  fun s _ hs => ⟨{ s with output := s.output ++ "\n" }, rfl, hs, rfl, rfl⟩

/-- The state after something was written in the place of values that an instruction took. -/
def State.printed (s : State) (rest : List Value) (text : String) : State :=
  { s with stack := rest, output := s.output ++ text }

theorem Leaves.of_printed (text : String) :
    Leaves s (s.printed rest) (write text { s with stack := rest }) (.ok text) := rfl

theorem leaves_written (hb : b.isWriting = true) (hs : s.stack = v :: rest) :
    Leaves s (s.printed rest) (b.execPlain s) (b.written v) := by
  cases b with
  | writei => exact .of_pop (popInteger_of_cons hs) (fun _ => Value.toInteger_regular) fun a _ => .of_printed _
  | writef => exact .of_pop (popReal_of_cons hs) (fun _ => Value.toReal_regular) fun a _ => .of_printed _
  | writes =>
    have h := @Leaves.of_pop rest s _ _ (s.printed rest) (popString "writes") write
      (v.toText "writes") .ok (popString_of_cons hs) (fun _ => Value.toText_regular) fun a _ => .of_printed _
    rwa [show (v.toText "writes" >>= Except.ok) = v.toText "writes" from bind_pure _] at h
  | writechr =>
    refine .of_pop (popInteger_of_cons hs) (fun _ => Value.toInteger_regular) fun c _ => ?_
    cases h : character? c with
    | some c => exact rfl
    | none => exact ⟨rfl, _, rfl⟩
  | _ => cases hb

theorem does_written (hb : b.isWriting = true) :
    (Op.basic b).Does p (p + 1) [v] (Eval.lift (b.written v) >>= Eval.write) fun _ => [] := by
  intro s rest hs
  have hl := leaves_written hb hs
  rw [exec_plain (by cases b <;> first | rfl | cases hb)]
  cases hw : b.written v with
  | ok text =>
    rw [hw] at hl
    exact ⟨_, EStateM.bind_of_ok hl, rfl, rfl, rfl⟩
  | error f =>
    rw [hw] at hl
    obtain ⟨hreg, stack, he⟩ := hl
    exact ⟨hreg, _, EStateM.bind_of_error he, rfl⟩

/-! ## instructions that work on the memory -/

/-- Reading a line, by what its bytes are. -/
theorem Eval.readLine_eq (m : Memory) :
    Eval.readLine m =
      match String.fromUTF8? (splitLine m.input).1.toByteArray with
      | some text => .ok (.string (chomp text)) { m with input := (splitLine m.input).2 }
      | none => .error (.fault .unreadableInput) { m with input := (splitLine m.input).2 } := by
  show (match String.fromUTF8? (splitLine m.input).1.toByteArray with
    | some text => (pure (.string (chomp text)) : Eval Value)
    | none => throw (Halt.fault .unreadableInput)) { m with input := (splitLine m.input).2 } = _
  cases String.fromUTF8? (splitLine m.input).1.toByteArray <;> rfl

theorem Exec.readLine_eq (s : State) :
    Exec.readLine s =
      match String.fromUTF8? (splitLine s.input).1.toByteArray with
      | some text => .ok (chomp text) { s with input := (splitLine s.input).2 }
      | none => .error .unreadableInput { s with input := (splitLine s.input).2 } := by
  show (match String.fromUTF8? (splitLine s.input).1.toByteArray with
    | some text => (pure (chomp text) : Exec String)
    | none => throw Fault.unreadableInput) { s with input := (splitLine s.input).2 } = _
  cases String.fromUTF8? (splitLine s.input).1.toByteArray <;> rfl

theorem does_read : (Op.basic .read).Does p (p + 1) [] Eval.readLine fun v => [v] := by
  intro s rest hs
  rw [exec_plain rfl]
  have heval := Eval.readLine_eq s.memory
  have hline := Exec.readLine_eq s
  have hinput : s.memory.input = s.input := rfl
  rw [hinput] at heval
  cases ht : String.fromUTF8? (splitLine s.input).1.toByteArray with
  | some text =>
    rw [ht] at heval hline
    rw [heval]
    refine ⟨{ s with stack := .string (chomp text) :: rest, input := (splitLine s.input).2 }, ?_, rfl, rfl,
      rfl⟩
    obtain ⟨stack, globals, calls, input, output⟩ := s
    cases hs
    exact EStateM.bind_of_ok (EStateM.bind_of_ok hline)
  | none =>
    rw [ht] at heval hline
    rw [heval]
    exact ⟨rfl, _, EStateM.bind_of_error (EStateM.bind_of_error hline), rfl⟩

/-- Reading a slot, by whether there is one and whether the value is let through. -/
theorem Eval.loadSlot_eq (w : Watch) (slot : Nat) (m : Memory) :
    Eval.loadSlot w slot m =
      if slot < maxGlobals then
        if w (.read slot (m.slots slot)) then .ok (m.slots slot) m
        else .error (.stopped (.read slot (m.slots slot))) m
      else .error (.fault (.invalidAddress (slotNumber slot))) m := by
  unfold Eval.loadSlot Eval.checkSlot
  by_cases h : slot < maxGlobals
  · rw [if_pos h, if_pos h]
    show (Eval.note w (.read slot (m.slots slot)) >>= fun _ => pure (m.slots slot)) m = _
    unfold Eval.note
    split <;> rfl
  · rw [if_neg h, if_neg h]
    rfl

theorem Exec.loadGlobal_eq (slot : Nat) (s : State) :
    Exec.loadGlobal slot s =
      if slot < maxGlobals then .ok (s.memory.slots slot) s
      else .error (.invalidAddress (slotNumber slot)) s := by
  unfold Exec.loadGlobal Exec.checkSlot
  split <;> rfl

theorem does_load (w : Watch) {slot : Nat} (hop : ∃ slot, op = .pushg slot)
    (h : ∀ s rest, s.stack = before ++ rest → op.exec p s =
      (loadGlobal slot >>= fun u => push u >>= fun _ => pure (.goto (p + 1))) { s with stack := rest }) :
    op.Does p (p + 1) before (Eval.loadSlot w slot) fun u => [u] := by
  intro s rest hs
  rw [h s rest hs, Eval.loadSlot_eq]
  have hload := Exec.loadGlobal_eq slot { s with stack := rest }
  by_cases hslot : slot < maxGlobals
  · rw [if_pos hslot] at hload ⊢
    by_cases hw : w (.read slot (s.memory.slots slot)) = true
    · rw [if_pos hw]
      exact ⟨_, EStateM.bind_of_ok hload, rfl, rfl, rfl⟩
    · rw [if_neg hw]
      exact hop
  · rw [if_neg hslot] at hload ⊢
    exact ⟨rfl, _, EStateM.bind_of_error hload, rfl⟩

theorem does_pushg (w : Watch) (slot : Nat) :
    (Op.pushg (some slot)).Does p (p + 1) [] (Eval.loadSlot w slot) fun v => [v] := by
  refine does_load w ⟨_, rfl⟩ fun s rest hs => ?_
  obtain ⟨stack, globals, calls, input, output⟩ := s
  cases hs
  rfl

theorem Value.toSlot_regular {name : String} {f : Fault} (h : v.toSlot name = .error f) :
    f.isRegular = true := by
  unfold Value.toSlot at h
  cases hv : v.toInteger name with
  | error f' =>
    rw [hv] at h
    cases h
    exact Value.toInteger_regular hv
  | ok n =>
    rw [hv] at h
    have h : (if 0 ≤ n.toInt ∧ n.toInt < maxGlobals then pure n.toInt.toNat
      else throw (.invalidAddress n)) = Except.error f := h
    split at h <;> cases h
    rfl

theorem does_pushg_top (w : Watch) :
    (Op.pushg none).Does p (p + 1) [v] (Eval.lift (v.toSlot "pushg") >>= Eval.loadSlot w) fun u => [u] := by
  have hexec : ∀ {s rest}, s.stack = v :: rest → (Op.pushg none).exec p s =
      (checked (v.toSlot "pushg") >>= fun slot => loadGlobal slot >>= fun u => push u >>= fun _ =>
        pure (.goto (p + 1))) { s with stack := rest } :=
    fun hs => EStateM.bind_of_eq (popSlot_of_cons hs)
  cases hv : v.toSlot "pushg" with
  | ok slot =>
    refine does_load w ⟨_, rfl⟩ fun s rest hs => ?_
    rw [hexec hs, hv]
    rfl
  | error f =>
    intro s rest hs
    rw [hexec hs, hv]
    exact ⟨Value.toSlot_regular hv, _, rfl, rfl⟩

/-- Writing a slot changes no other. -/
theorem getElem?_store {globals : Array Value} {slot i : Nat} :
    ((globals.rightpad (slot + 1) .zero).setIfInBounds slot v)[i]?.getD .zero
      = if i = slot then v else globals[i]?.getD .zero := by
  rw [Array.getElem?_setIfInBounds, Array.rightpad]
  by_cases h : slot = i
  · have hsize : slot < (globals ++ Array.replicate (slot + 1 - globals.size) Value.zero).size := by
      rw [Array.size_append, Array.size_replicate]
      omega
    rw [if_pos h, if_pos hsize, if_pos h.symm]
    rfl
  · rw [if_neg h, if_neg (Ne.symm h), Array.getElem?_append]
    split
    · rfl
    · rename_i hi
      rw [Array.getElem?_replicate, Array.getElem?_eq_none (by omega)]
      split <;> rfl

theorem Exec.storeGlobal_eq (slot : Nat) (v : Value) (s : State) :
    (slot < maxGlobals → ∃ t, Exec.storeGlobal slot v s = .ok () t ∧ t.stack = s.stack ∧
      t.calls = s.calls ∧ t.memory = s.memory.set slot v) ∧
    (¬ slot < maxGlobals → Exec.storeGlobal slot v s = .error (.invalidAddress (slotNumber slot)) s) := by
  unfold Exec.storeGlobal Exec.checkSlot
  refine ⟨fun h => ?_, fun h => ?_⟩
  · rw [if_pos h]
    refine ⟨_, rfl, rfl, rfl, ?_⟩
    show Memory.mk _ _ _ = Memory.mk _ _ _
    congr 1
    funext i
    exact getElem?_store
  · rw [if_neg h]
    rfl

/-- Writing a slot that there is. -/
theorem Eval.storeSlot_of_lt {slot : Nat} {m : Memory} (h : slot < maxGlobals) :
    Eval.storeSlot slot v m = .ok () (m.set slot v) := by
  unfold Eval.storeSlot Eval.checkSlot
  rw [if_pos h]
  rfl

theorem does_store {slot : Nat}
    (h : ∀ s rest, s.stack = before ++ rest → op.exec p s =
      (storeGlobal slot v >>= fun _ => pure (.goto (p + 1))) { s with stack := rest }) :
    op.Does p (p + 1) before (Eval.storeSlot slot v) fun _ => [] := by
  intro s rest hs
  rw [h s rest hs]
  obtain ⟨hin, hout⟩ := Exec.storeGlobal_eq slot v { s with stack := rest }
  unfold Eval.storeSlot Eval.checkSlot
  by_cases hslot : slot < maxGlobals
  · obtain ⟨t, ht, hstack, hcalls, hmem⟩ := hin hslot
    rw [if_pos hslot]
    exact ⟨t, EStateM.bind_of_ok ht, hstack, hcalls, hmem⟩
  · rw [if_neg hslot]
    exact ⟨rfl, _, EStateM.bind_of_error (hout hslot), rfl⟩

theorem does_storeg (slot : Nat) :
    (Op.storeg (some slot)).Does p (p + 1) [v] (Eval.storeSlot slot v) fun _ => [] := by
  refine does_store fun s rest hs => ?_
  exact EStateM.bind_of_ok (pop_of_cons hs)

/-- The slot is on top, and the value below it. -/
theorem does_storeg_top {a : Value} :
    (Op.storeg none).Does p (p + 1) [a, v]
      (Eval.lift (a.toSlot "storeg") >>= fun slot => Eval.storeSlot slot v) fun _ => [] := by
  have hexec : ∀ {s rest}, s.stack = a :: v :: rest → (Op.storeg none).exec p s =
      (checked (a.toSlot "storeg") >>= fun slot => Exec.pop "storeg" >>= fun v => storeGlobal slot v >>= fun _ =>
        pure (.goto (p + 1))) { s with stack := v :: rest } :=
    fun hs => EStateM.bind_of_eq (popSlot_of_cons hs)
  cases ha : a.toSlot "storeg" with
  | ok slot =>
    refine does_store fun s rest hs => ?_
    rw [hexec hs, ha]
    have hpop : Exec.pop "storeg" { s with stack := v :: rest } = .ok v { s with stack := rest } :=
      pop_of_cons rfl
    exact (EStateM.bind_of_ok rfl).trans (EStateM.bind_of_ok hpop)
  | error f =>
    intro s rest hs
    rw [hexec hs, ha]
    exact ⟨Value.toSlot_regular ha, _, rfl, rfl⟩

end

end PascalStack
