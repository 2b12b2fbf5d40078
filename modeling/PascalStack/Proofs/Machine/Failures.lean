import PascalStack.Proofs.Machine.Linking

/-!
# What failing instructions leave behind

An instruction takes its operands off the stack and checks them before it has any effect.  So a fault arises
when at most two values are gone and nothing else has changed.  Only reading a line is different: the line is
taken from the input before it turns out not to be text.

* `State.Pops`          at most so many values were taken off the stack;
* `State.Prints`        something may have been added to the output;
* `Exec.Takes`          computations that do nothing but take values off the stack;
* `Exec.ChecksFirst`    computations in which all checks come before the effects;
* `Op.exec_checksFirst` instructions but one are of this kind, `exec_read_error` is about the one;
* `step_prints`         steps do not take back output.
-/

namespace PascalStack

namespace State

/-- At most `n` values are taken off the stack from `s` to `t`, and nothing else changes. -/
def Pops (n : Nat) (s t : State) : Prop :=
  ∃ top : List Value, top.length ≤ n ∧ s = { t with stack := top ++ t.stack }

/-- The output of `t` is that of `s`, perhaps with something after it. -/
def Prints (s t : State) : Prop := ∃ text, t.output = s.output ++ text

variable {n m : Nat} {s t u : State}

theorem Pops.refl (s : State) : s.Pops n s := ⟨[], Nat.zero_le n, rfl⟩

theorem Pops.trans (h : s.Pops n t) (h' : t.Pops m u) : s.Pops (n + m) u := by
  obtain ⟨top, hlength, rfl⟩ := h
  obtain ⟨top', hlength', rfl⟩ := h'
  refine ⟨top ++ top', ?_, ?_⟩
  · rw [List.length_append]
    exact Nat.add_le_add hlength hlength'
  · rw [List.append_assoc]

theorem Pops.mono (h : s.Pops n t) (hnm : n ≤ m) : s.Pops m t := by
  obtain ⟨top, hlength, hs⟩ := h
  exact ⟨top, Nat.le_trans hlength hnm, hs⟩

theorem Pops.output (h : s.Pops n t) : t.output = s.output := by
  obtain ⟨top, -, rfl⟩ := h
  rfl

theorem Prints.of_output (h : t.output = s.output) : s.Prints t := ⟨"", by rw [h, String.append_empty]⟩

theorem Prints.trans (h : s.Prints t) (h' : t.Prints u) : s.Prints u := by
  obtain ⟨text, ht⟩ := h
  obtain ⟨text', hu⟩ := h'
  exact ⟨text ++ text', by rw [hu, ht, String.append_assoc]⟩

end State

theorem EStateM.bind_eq_error {ε σ α β : Type} {x : EStateM ε σ α} {f : α → EStateM ε σ β} {s u : σ} {e : ε} :
    (x >>= f) s = .error e u ↔ x s = .error e u ∨ ∃ a t, x s = .ok a t ∧ f a t = .error e u := by
  cases hx : x s with
  | ok a t =>
    rw [bind_of_ok hx]
    constructor
    · intro h
      exact .inr ⟨a, t, rfl, h⟩
    · rintro (h | ⟨a', t', h, hf⟩)
      · cases h
      · cases h
        exact hf
  | error e' t =>
    rw [bind_of_error hx]
    constructor
    · intro h
      cases h
      exact .inl rfl
    · rintro (h | ⟨a', t', h, -⟩)
      · cases h
        rfl
      · cases h

namespace Exec
variable {α β : Type} {n m : Nat} {x : Exec α} {f : α → Exec β}

/-- Takes at most `n` values off the stack and changes nothing else, whether it fails or not. -/
structure Takes (n : Nat) (x : Exec α) : Prop where
  ok : ∀ s a t, x s = .ok a t → s.Pops n t
  error : ∀ s f t, x s = .error f t → s.Pops n t

/-- All checks come before the effects: it fails with at most `n` values taken off the stack and nothing else
changed.  If it does not fail, it may have added to the output. -/
structure ChecksFirst (n : Nat) (x : Exec α) : Prop where
  ok : ∀ s a t, x s = .ok a t → s.Prints t
  error : ∀ s f t, x s = .error f t → s.Pops n t

/-! ## computations that take values -/

theorem Takes.bind (hx : Takes n x) (hf : ∀ a, Takes m (f a)) : Takes (m + n) (x >>= f) where
  ok s b u h := by
    obtain ⟨a, t, hxa, hfa⟩ := EStateM.bind_eq_ok.mp h
    exact Nat.add_comm n m ▸ (hx.ok s a t hxa).trans ((hf a).ok t b u hfa)
  error s e u h := by
    rcases EStateM.bind_eq_error.mp h with h | ⟨a, t, hxa, hfa⟩
    · exact (hx.error s e u h).mono (Nat.le_add_left n m)
    · exact Nat.add_comm n m ▸ (hx.ok s a t hxa).trans ((hf a).error t e u hfa)

theorem Takes.pure (a : α) : Takes n (Pure.pure a) where
  ok s b t h := by
    cases h
    exact .refl s
  error _ _ _ h := nomatch h

theorem Takes.throw (e : Fault) : Takes n (throw e : Exec α) where
  ok _ _ _ h := nomatch h
  error s e' t h := by
    cases h
    exact .refl s

theorem Takes.get : Takes 0 (get : Exec State) where
  ok s b t h := by
    cases h
    exact .refl s
  error _ _ _ h := nomatch h

theorem takes_pop (instruction : String) : Takes 1 (pop instruction) where
  ok s v t h := by
    obtain ⟨stack, globals, calls, input, output⟩ := s
    cases stack with
    | nil => cases h
    | cons w rest =>
      cases h
      exact ⟨[v], Nat.le_refl 1, rfl⟩
  error s e t h := by
    obtain ⟨stack, globals, calls, input, output⟩ := s
    cases stack with
    | nil =>
      cases h
      exact .refl _
    | cons w rest => cases h

theorem takes_checked (e : Except Fault α) : Takes 0 (checked e) := by
  cases e with
  | ok a => exact .pure a
  | error e => exact .throw e

theorem takes_popInteger (instruction : String) : Takes 1 (popInteger instruction) := by
  refine (takes_pop instruction).bind fun v => ?_
  cases v with
  | integer k => exact .pure k
  | _ => exact .throw _

theorem takes_popReal (instruction : String) : Takes 1 (popReal instruction) := by
  refine (takes_pop instruction).bind fun v => ?_
  cases v with
  | real y => exact .pure y
  | integer k => exact .pure _
  | _ => exact .throw _

theorem takes_popString (instruction : String) : Takes 1 (popString instruction) := by
  refine (takes_pop instruction).bind fun v => ?_
  cases v with
  | string text => exact .pure text
  | _ => exact .throw _

theorem takes_popAddress (instruction : String) : Takes 1 (popAddress instruction) := by
  refine (takes_pop instruction).bind fun v => ?_
  cases v with
  | address a => exact .pure a
  | _ => exact .throw _

theorem takes_popSlot (instruction : String) : Takes 1 (popSlot instruction) := by
  refine (takes_popInteger instruction).bind fun k => ?_
  split
  · exact .pure _
  · exact .throw _

theorem takes_slotOr (slot : Option Nat) (instruction : String) : Takes 1 (slotOr slot instruction) := by
  cases slot with
  | some k => exact .pure k
  | none => exact takes_popSlot instruction

theorem takes_checkSlot (slot : Nat) : Takes 0 (checkSlot slot) := by
  unfold checkSlot
  split
  · exact .pure _
  · exact .throw _

theorem takes_loadGlobal (slot : Nat) : Takes 0 (loadGlobal slot) :=
  (takes_checkSlot slot).bind fun _ => Takes.get.bind fun _ => .pure _

theorem takes_top (count : Nat) (instruction : String) : Takes 0 (top count instruction) := by
  refine Takes.get.bind fun s => ?_
  dsimp only
  split
  · exact Takes.bind (n := 0) (.throw _) fun _ => .pure _
  · exact .pure _

/-! ## computations with effects -/

theorem Takes.checksFirst (h : Takes n x) : ChecksFirst n x :=
  ⟨fun s a t hx => .of_output (h.ok s a t hx).output, h.error⟩

/-- What takes values may stand before any other computation. -/
theorem Takes.then (hx : Takes n x) (hf : ∀ a, ChecksFirst m (f a)) : ChecksFirst (m + n) (x >>= f) where
  ok s b u h := by
    obtain ⟨a, t, hxa, hfa⟩ := EStateM.bind_eq_ok.mp h
    exact (State.Prints.of_output (hx.ok s a t hxa).output).trans ((hf a).ok t b u hfa)
  error s e u h := by
    rcases EStateM.bind_eq_error.mp h with h | ⟨a, t, hxa, hfa⟩
    · exact (hx.error s e u h).mono (Nat.le_add_left n m)
    · exact Nat.add_comm n m ▸ (hx.ok s a t hxa).trans ((hf a).error t e u hfa)

/-- After an effect nothing may fail any more. -/
theorem ChecksFirst.done (hx : ChecksFirst n x) (g : α → β) : ChecksFirst n (x >>= fun a => pure (g a)) where
  ok s b u h := by
    obtain ⟨a, t, hxa, hu⟩ := EStateM.bind_eq_ok.mp h
    cases hu
    exact hx.ok s a u hxa
  error s e u h := by
    rcases EStateM.bind_eq_error.mp h with h | ⟨a, t, hxa, hu⟩
    · exact hx.error s e u h
    · cases hu

theorem ChecksFirst.modify {g : State → State} (hg : ∀ s : State, s.Prints (g s)) : ChecksFirst n (modify g) where
  ok s a t h := by
    cases h
    exact hg s
  error _ _ _ h := nomatch h

theorem push_checksFirst (v : Value) : ChecksFirst n (push v) := .modify fun _ => .of_output rfl

theorem write_checksFirst (text : String) : ChecksFirst n (write text) := .modify fun _ => ⟨text, rfl⟩

theorem storeGlobal_checksFirst (slot : Nat) (v : Value) : ChecksFirst n (storeGlobal slot v) :=
  (takes_checkSlot slot).then fun _ => .modify fun _ => .of_output rfl

theorem discard_checksFirst (count : Nat) (instruction : String) : ChecksFirst n (discard count instruction) :=
  (takes_top count instruction).then fun _ => .modify fun _ => .of_output rfl

theorem duplicate_checksFirst (count : Nat) (instruction : String) :
    ChecksFirst n (duplicate count instruction) :=
  (takes_top count instruction).then fun _ => .modify fun _ => .of_output rfl

end Exec

open Exec

/-! ## instructions -/

theorem Basic.execPlain_checksFirst {b : Basic} (hb : b ≠ .read) : ChecksFirst 2 b.execPlain := by
  cases b with
  | call | ret | start | stop | nop => exact (Takes.pure ()).checksFirst
  | arith o =>
    exact (takes_popInteger _).then fun _ => (takes_popInteger _).then fun _ =>
      (takes_checked _).then fun _ => push_checksFirst _
  | realArith o =>
    exact (takes_popReal _).then fun _ => (takes_popReal _).then fun _ =>
      (takes_checked _).then fun _ => push_checksFirst _
  | order o =>
    exact (takes_popInteger _).then fun _ => (takes_popInteger _).then fun _ => push_checksFirst _
  | realOrder o => exact (takes_popReal _).then fun _ => (takes_popReal _).then fun _ => push_checksFirst _
  | itof | ftoi => exact (takes_popReal _).then fun _ => push_checksFirst _
  | equal | and | or => exact (takes_pop _).then fun _ => (takes_pop _).then fun _ => push_checksFirst _
  | not => exact (takes_pop _).then fun _ => push_checksFirst _
  | writei => exact (takes_popInteger _).then fun _ => write_checksFirst _
  | writef => exact (takes_popReal _).then fun _ => write_checksFirst _
  | writes => exact (takes_popString _).then fun _ => write_checksFirst _
  | writechr =>
    refine (takes_popInteger _).then fun code => ?_
    split
    · exact write_checksFirst _
    · exact (Takes.throw _).checksFirst
  | writeln => exact write_checksFirst _
  | read => exact absurd rfl hb
  | atoi | atof =>
    refine (takes_popString _).then fun text => ?_
    split
    · exact push_checksFirst _
    · exact (Takes.throw _).checksFirst
  | strlen => exact (takes_popString _).then fun _ => push_checksFirst _
  | charat =>
    refine (takes_popInteger _).then fun index => (takes_popString _).then fun text => ?_
    split
    · exact push_checksFirst _
    · exact (Takes.throw _).checksFirst

/-- In all instructions but one the checks come first. -/
theorem Op.exec_checksFirst {op : Op Nat} (hop : op ≠ .basic .read) (p : Nat) : ChecksFirst 2 (op.exec p) := by
  cases op with
  | pushi n => exact (push_checksFirst _).done _
  | pushf x => exact (push_checksFirst _).done _
  | pushs text => exact (push_checksFirst _).done _
  | pusha target => exact (push_checksFirst _).done _
  | pushn count =>
    refine ChecksFirst.done ?_ _
    exact .modify fun _ => .of_output rfl
  | pushg slot =>
    exact (takes_slotOr _ _).then fun _ => (takes_loadGlobal _).then fun _ => (push_checksFirst _).done _
  | storeg slot =>
    exact (takes_slotOr _ _).then fun _ => (takes_pop _).then fun _ => (storeGlobal_checksFirst _ _).done _
  | load offset =>
    exact (takes_popSlot _).then fun _ => (takes_loadGlobal _).then fun _ => (push_checksFirst _).done _
  | pop count => exact (discard_checksFirst _ _).done _
  | dup count => exact (duplicate_checksFirst _ _).done _
  | jump target => exact (Takes.pure _).checksFirst
  | jz target => exact (takes_pop _).then fun _ => (Takes.pure _).checksFirst
  | basic b =>
    have hb : b ≠ .read := fun h => hop (congrArg Op.basic h)
    cases b with
    | call =>
      refine (takes_popAddress _).then fun _ => ChecksFirst.done ?_ _
      exact .modify fun _ => .of_output rfl
    | ret =>
      refine Takes.get.then fun s => ?_
      split
      · refine ChecksFirst.done ?_ _
        exact .modify fun _ => .of_output rfl
      · exact (Takes.throw _).checksFirst
    | stop => exact (Takes.pure _).checksFirst
    | read => exact absurd rfl hb
    | _ => exact (Basic.execPlain_checksFirst hb).done _

section
variable {code : Code} {p : Nat} {s t : State} {f : Fault} {flow : Flow}

/-- A line is gone from the input, whether it can be read or not. -/
theorem exec_read_cases (p : Nat) (s : State) :
    (∃ flow text, (Op.basic .read).exec p s =
      .ok flow { s with stack := .string text :: s.stack, input := (splitLine s.input).2 }) ∨
    ∃ f, (Op.basic .read).exec p s = .error f { s with input := (splitLine s.input).2 } := by
  have hline := Exec.readLine_eq s
  cases htext : String.fromUTF8? (splitLine s.input).1.toByteArray with
  | some text =>
    rw [htext] at hline
    have hok := EStateM.bind_of_ok (f := fun text => push (.string text)) hline
    exact .inl ⟨_, _, EStateM.bind_of_ok hok⟩
  | none =>
    rw [htext] at hline
    have herror := EStateM.bind_of_error (f := fun text => push (.string text)) hline
    exact .inr ⟨_, EStateM.bind_of_error herror⟩

theorem exec_read_error (h : (Op.basic .read).exec p s = .error f t) :
    t = { s with input := (splitLine s.input).2 } := by
  rcases exec_read_cases p s with ⟨_, _, hok⟩ | ⟨_, herror⟩
  · cases hok.symm.trans h
  · cases herror.symm.trans h
    rfl

theorem exec_read_ok (h : (Op.basic .read).exec p s = .ok flow t) : t.output = s.output := by
  rcases exec_read_cases p s with ⟨_, _, hok⟩ | ⟨_, herror⟩
  · cases hok.symm.trans h
    rfl
  · cases herror.symm.trans h

/-! ## steps -/

/-- A step that fails finds an instruction that cannot be decoded, or one that fails. -/
theorem step_eq_failed (h : step code p s = (.failed f, t)) :
    (code[p]? = some (.error f) ∧ t = s) ∨ ∃ op, code[p]? = some (.ok op) ∧ op.exec p s = .error f t := by
  unfold step at h
  split at h
  · cases h
  · rename_i f' hcode
    cases h
    exact .inl ⟨hcode, rfl⟩
  · rename_i op hcode
    refine .inr ⟨op, hcode, ?_⟩
    split at h
    · cases h
    · cases h
    · rename_i hexec
      cases h
      exact hexec

/-- A step adds to the output, if it changes it at all. -/
theorem step_prints {status : Status} (h : step code p s = (status, t)) : s.Prints t := by
  have hexec (op : Op Nat) : (∀ flow t, op.exec p s = .ok flow t → s.Prints t) ∧
      ∀ f t, op.exec p s = .error f t → s.Prints t := by
    by_cases hread : op = .basic .read
    · subst hread
      refine ⟨fun flow t h => .of_output (exec_read_ok h), fun f t h => .of_output ?_⟩
      rw [exec_read_error h]
    · have hchecks := op.exec_checksFirst hread p
      exact ⟨hchecks.ok s, fun f t h => .of_output (hchecks.error s f t h).output⟩
  unfold step at h
  split at h
  · cases h
    exact .of_output rfl
  · cases h
    exact .of_output rfl
  · rename_i op _
    split at h <;> rename_i hop <;> cases h
    · exact (hexec op).1 _ _ hop
    · exact (hexec op).1 _ _ hop
    · exact (hexec op).2 _ _ hop

end

/-- **A failing instruction changes almost nothing.**  The global slots, the return stack and the output are as
they were before, at most two values are gone from the operand stack, and so is no input, unless the
instruction was to read it. -/
theorem failing_step {img : Image} {p : Nat} {s t : State} {f : Fault}
    (h : step img.code p s = (.failed f, t)) :
    t.globals = s.globals ∧ t.calls = s.calls ∧ t.output = s.output ∧
      (∃ top : List Value, top.length ≤ 2 ∧ s.stack = top ++ t.stack) ∧
      ∃ i, img.instructions[p]? = some i ∧ (i.opcode ≠ .basic .read → t.input = s.input) := by
  rcases step_eq_failed h with ⟨hcode, rfl⟩ | ⟨op, hcode, hexec⟩
  · obtain ⟨i, hi, -⟩ := Image.instruction_of_code hcode
    exact ⟨rfl, rfl, rfl, ⟨[], Nat.zero_le 2, rfl⟩, i, hi, fun _ => rfl⟩
  · obtain ⟨i, hi, hdecode⟩ := Image.instruction_of_code hcode
    have hopcode := (Image.decode_ok hdecode).1
    by_cases hread : op = .basic .read
    · subst hread
      rw [exec_read_error hexec]
      exact ⟨rfl, rfl, rfl, ⟨[], Nat.zero_le 2, rfl⟩, i, hi, fun hne => absurd hopcode.symm hne⟩
    · obtain ⟨top, hlength, rfl⟩ := (op.exec_checksFirst hread p).error s f t hexec
      exact ⟨rfl, rfl, rfl, ⟨top, hlength, rfl⟩, i, hi, fun _ => rfl⟩

/-- A program that asks for a character of a string. -/
def characterImage : Image := ⟨#[⟨.basic .charat, none, 1⟩], []⟩

/-- The index and the string are gone; what is below them stays. -/
theorem failing_step_charat : load "charat" = .ok characterImage ∧ ∃ s t : State,
    s.stack = [.integer 5, .string "ab", .real 1] ∧ step characterImage.code 0 s = (.failed (.stringIndex 5 2), t) ∧
    t.globals = s.globals ∧ t.calls = s.calls ∧ t.output = s.output ∧
      (∃ top : List Value, top.length ≤ 2 ∧ s.stack = top ++ t.stack) ∧
      ∃ i, characterImage.instructions[0]? = some i ∧ (i.opcode ≠ .basic .read → t.input = s.input) := by
  have hstep : step characterImage.code 0
      ⟨[.integer 5, .string "ab", .real 1], #[.integer 7], [3], [65], "x"⟩ =
        (.failed (.stringIndex 5 2), ⟨[.real 1], #[.integer 7], [3], [65], "x"⟩) := by
    cbv
  exact ⟨rfl, _, _, rfl, hstep, failing_step hstep⟩

end PascalStack
