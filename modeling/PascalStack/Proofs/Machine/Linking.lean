import PascalStack.Proofs.Machine.Frames

/-!
# What loading rules out

Loaded code jumps only to labels, and no run of it takes the machine anywhere else.

* `Fault.isLinking`   the faults that loading is there to find;
* `Image.Linked`      all targets are labels, and labels are positions of the code, `load_linked`;
* `State.InRange`     addresses are positions of labels, and the return stack leads back behind calls;
* `Exec.Safe`         computations that keep a state in range, with their faults;
* `step_safe`, `runFrom_safe`, `afterRuns_inRange`   steps, runs, and any number of runs.
-/

namespace PascalStack

/-- Faults of code that names what it does not define. -/
def Fault.isLinking : Fault → Bool
  | .unknownInstruction _ _ | .unknownLabel _ => true
  | .malformedOperand instruction _ => ["jump", "jz", "pusha"].contains instruction
  | _ => false

/-- The state after runs on one machine, each with its limit of steps.  A run that failed leaves the
state as it was then. -/
def afterRuns (code : Code) (limits : List (Option Nat)) (s : State) : State :=
  limits.foldl (fun s limit => (run code limit s).2) s

def Opcode.namesLabel : Opcode → Bool
  | .jump | .jz | .pusha => true
  | _ => false

def Op.position? : Op Nat → Option Nat
  | .jump target | .jz target | .pusha target => some target
  | _ => none

namespace Image
variable (img : Image)

def IsLabel (a : Nat) : Prop := ∃ name, img.target? name = some a

/-- A position behind a call. -/
def IsReturn (r : Nat) : Prop :=
  1 ≤ r ∧ r ≤ img.instructions.size ∧
    ∃ i, img.instructions[r - 1]? = some i ∧ i.opcode = .basic .call

/-- What loading makes sure of. -/
structure Linked : Prop where
  labels : ∀ a, img.IsLabel a → a ≤ img.instructions.size
  targets : ∀ i ∈ img.instructions, i.opcode.namesLabel = true → ∃ a, img.targetOf i = .ok a

end Image

/-- An address is the position of a label. -/
def Value.Labelled (img : Image) : Value → Prop
  | .address a => img.IsLabel a
  | _ => True

structure State.InRange (img : Image) (s : State) : Prop where
  stack : ∀ v ∈ s.stack, v.Labelled img
  globals : ∀ v ∈ s.globals, v.Labelled img
  size : s.globals.size ≤ maxGlobals
  calls : ∀ r ∈ s.calls, img.IsReturn r

/-- Control goes on inside of the code or at its end. -/
def Flow.InRange (img : Image) : Flow → Prop
  | .goto q => q ≤ img.instructions.size
  | .stop => True

def Status.InRange (img : Image) : Status → Prop
  | .finished => True
  | .failed f => f.isLinking = false
  | .suspended q => q ≤ img.instructions.size

/-! ## loading -/

section
variable {img next : Image} {number : Nat}

/-- A line adds a label at the end of the code, or an instruction. -/
theorem Image.add_labels {line : List Char} (h : img.add number line = .ok next)
    (hlabels : ∀ l ∈ img.labels, l.2 ≤ img.instructions.size) :
    ∀ l ∈ next.labels, l.2 ≤ next.instructions.size := by
  unfold Image.add at h
  split at h
  · cases h
    exact hlabels
  · cases h
    intro l hl
    rcases List.mem_cons.mp hl with rfl | hl
    · exact Nat.le_refl _
    · exact hlabels l hl
  · split at h
    · cases h
      intro l hl
      rw [Array.size_push]
      exact Nat.le_succ_of_le (hlabels l hl)
    · cases h

theorem Image.addAll_labels {lines : List (List Char)} (h : img.addAll number lines = .ok next)
    (hlabels : ∀ l ∈ img.labels, l.2 ≤ img.instructions.size) :
    ∀ l ∈ next.labels, l.2 ≤ next.instructions.size := by
  induction lines generalizing img number with
  | nil =>
    cases h
    exact hlabels
  | cons line rest ih =>
    unfold Image.addAll at h
    split at h
    · rename_i mid hadd
      exact ih h (Image.add_labels hadd hlabels)
    · cases h

theorem Image.checkTarget_eq_ok {i : Instruction} (h : img.checkTarget i = .ok ())
    (hi : i.opcode.namesLabel = true) : ∃ a, img.targetOf i = .ok a := by
  unfold Image.checkTarget at h
  cases htarget : img.targetOf i with
  | ok a => exact ⟨a, rfl⟩
  | error f =>
    rw [htarget] at h
    split at h
    · cases h
    · cases h
    · cases h
    · rename_i hjump hjz hpusha
      cases hop : i.opcode with
      | jump => exact absurd hop hjump
      | jz => exact absurd hop hjz
      | pusha => exact absurd hop hpusha
      | _ =>
        rw [hop] at hi
        cases hi

theorem Image.checkTargets_eq_ok {is : List Instruction} (h : img.checkTargets is = .ok ()) :
    ∀ i ∈ is, img.checkTarget i = .ok () := by
  induction is with
  | nil => nofun
  | cons i rest ih =>
    unfold Image.checkTargets at h
    split at h
    · rename_i hi
      intro j hj
      rcases List.mem_cons.mp hj with rfl | hj
      · exact hi
      · exact ih h j hj
    · cases h

/-- Loading reads every line and finds every target. -/
theorem load_linked {text : String} (h : load text = .ok img) : img.Linked := by
  unfold load at h
  cases hadd : Image.empty.addAll 1 (Text.lines text.toList) with
  | error f =>
    rw [hadd] at h
    cases h
  | ok mid =>
    cases hcheck : mid.checkTargets mid.instructions.toList with
    | error f =>
      rw [hadd] at h
      dsimp only [bind, Except.bind] at h
      rw [hcheck] at h
      cases h
    | ok u =>
      rw [hadd] at h
      dsimp only [bind, Except.bind] at h
      rw [hcheck] at h
      cases h
      refine ⟨?_, fun i hi hname => ?_⟩
      · rintro a ⟨name, ha⟩
        have hmem : ∃ l ∈ img.labels, l.2 = a := by
          obtain ⟨before, after, hlabels, -⟩ := List.lookup_eq_some_iff.mp ha
          exact ⟨(name, a), by rw [hlabels]; simp, rfl⟩
        obtain ⟨l, hl, rfl⟩ := hmem
        exact Image.addAll_labels hadd nofun l hl
      · exact Image.checkTarget_eq_ok (Image.checkTargets_eq_ok hcheck i (Array.mem_toList_iff.mpr hi)) hname

end

/-! ## decoding -/

section
variable {α β : Type} {x : Except Fault α} {g : α → β} {i : Instruction} {f : Fault} {img : Image}
  {op : Op Nat}

theorem error_of_bind_pure (h : (x >>= fun a => pure (g a)) = .error f) : x = .error f := by
  cases x with
  | ok a => cases h
  | error e =>
    cases h
    rfl

theorem ok_of_bind_pure {b : β} (h : (x >>= fun a => pure (g a)) = .ok b) : ∃ a, x = .ok a ∧ g a = b := by
  cases x with
  | ok a =>
    cases h
    exact ⟨a, rfl, rfl⟩
  | error e => cases h

namespace Instruction

/-- The fault says that the operand of the instruction cannot be read. -/
def Blames (i : Instruction) (f : Fault) : Prop := ∃ operand, f = .malformedOperand i.name operand

theorem parsed_error {read? : String → Option α} (h : i.parsed read? = .error f) : i.Blames f := by
  unfold parsed required at h
  cases hoperand : i.operand with
  | none =>
    rw [hoperand] at h
    cases h
    exact ⟨"", rfl⟩
  | some operand =>
    rw [hoperand] at h
    dsimp only [bind, Except.bind] at h
    split at h
    · cases h
    · cases h
      exact ⟨operand, rfl⟩

theorem count_error (h : i.count = .error f) : i.Blames f := by
  unfold count at h
  split at h
  · exact parsed_error h
  · cases h

theorem slot_error (h : i.slot = .error f) : i.Blames f := by
  unfold slot at h
  split at h
  · exact parsed_error (error_of_bind_pure h)
  · cases h

theorem zeros_error (h : i.zeros = .error f) : i.Blames f := by
  unfold zeros at h
  cases hn : i.parsed fun t => unsigned? t.toList with
  | error e =>
    rw [hn] at h
    cases h
    exact parsed_error hn
  | ok n =>
    rw [hn] at h
    dsimp only [bind, Except.bind] at h
    split at h
    · cases h
      exact ⟨_, rfl⟩
    · cases h

end Instruction

/-- Decoding reads the operand of an instruction, or finds its target. -/
theorem Image.decode_error (h : img.decode i = .error f) :
    if i.opcode.namesLabel then img.targetOf i = .error f else i.Blames f := by
  unfold Image.decode at h
  cases hop : i.opcode with
  | pushi | pushf | pushs | load =>
    rw [hop] at h
    exact Instruction.parsed_error (error_of_bind_pure h)
  | pushn =>
    rw [hop] at h
    exact Instruction.zeros_error (error_of_bind_pure h)
  | pushg | storeg =>
    rw [hop] at h
    exact Instruction.slot_error (error_of_bind_pure h)
  | pop | dup =>
    rw [hop] at h
    exact Instruction.count_error (error_of_bind_pure h)
  | pusha | jump | jz =>
    rw [hop] at h
    exact error_of_bind_pure h
  | basic b =>
    rw [hop] at h
    cases h

theorem Image.decode_ok (h : img.decode i = .ok op) :
    op.opcode = i.opcode ∧ ∀ a, op.position? = some a → img.targetOf i = .ok a := by
  unfold Image.decode at h
  cases hop : i.opcode with
  | pusha | jump | jz =>
    rw [hop] at h
    obtain ⟨a, ha, rfl⟩ := ok_of_bind_pure h
    refine ⟨rfl, fun b hb => ?_⟩
    cases hb
    exact ha
  | basic b =>
    rw [hop] at h
    cases h
    exact ⟨rfl, nofun⟩
  | _ =>
    rw [hop] at h
    obtain ⟨a, -, rfl⟩ := ok_of_bind_pure h
    exact ⟨rfl, nofun⟩

theorem Image.targetOf_isLabel {a : Nat} (h : img.targetOf i = .ok a) : img.IsLabel a := by
  unfold Image.targetOf at h
  cases hreq : i.required with
  | error e =>
    rw [hreq] at h
    cases h
  | ok label =>
    rw [hreq] at h
    dsimp only [bind, Except.bind] at h
    split at h
    · rename_i position hposition
      cases h
      exact ⟨label, hposition⟩
    · cases h

/-- Only jumps and addresses have a fault that is about a label. -/
theorem Instruction.Blames.not_isLinking (h : i.Blames f) (hi : i.opcode.namesLabel = false) :
    f.isLinking = false := by
  obtain ⟨operand, rfl⟩ := h
  unfold Instruction.name Fault.isLinking
  cases hop : i.opcode with
  | pusha | jump | jz =>
    rw [hop] at hi
    cases hi
  | basic b =>
    cases b with
    | arith o | realArith o | order o | realOrder o => cases o <;> rfl
    | _ => rfl
  | _ => rfl

/-- An instruction of the code is one of the text, decoded. -/
theorem Image.instruction_of_code {p : Nat} {d : Except Fault (Op Nat)} (h : img.code[p]? = some d) :
    ∃ i, img.instructions[p]? = some i ∧ img.decode i = d := by
  unfold Image.code at h
  rw [Array.getElem?_map] at h
  exact Option.map_eq_some_iff.mp h

/-- Linked code has no instruction with a fault of linking. -/
theorem Image.Linked.code_error (hl : img.Linked) {p : Nat} (h : img.code[p]? = some (.error f)) :
    f.isLinking = false := by
  obtain ⟨i, hi, hd⟩ := Image.instruction_of_code h
  have herror := Image.decode_error hd
  cases hname : i.opcode.namesLabel with
  | false =>
    rw [hname] at herror
    exact Instruction.Blames.not_isLinking herror hname
  | true =>
    obtain ⟨a, ha⟩ := hl.targets i (Array.mem_of_getElem? hi) hname
    rw [hname, ha] at herror
    cases herror

end

/-! ## instructions -/

namespace Exec
variable {α β : Type} {img : Image} {Q : α → Prop} {R : β → Prop}

/-- Keeps a state in range, also with a fault, which is not one of linking; results are as `Q` says. -/
def Safe (img : Image) (x : Exec α) (Q : α → Prop) : Prop :=
  ∀ s : State, s.InRange img →
    match x s with
    | .ok a t => t.InRange img ∧ Q a
    | .error f t => t.InRange img ∧ f.isLinking = false

theorem Safe.bind {x : Exec α} {f : α → Exec β} (hx : Safe img x Q)
    (hf : ∀ a, Q a → Safe img (f a) R) : Safe img (x >>= f) R := by
  intro s hs
  have hstep := hx s hs
  cases h : x s with
  | ok a t =>
    rw [h] at hstep
    rw [EStateM.bind_of_ok h]
    exact hf a hstep.2 t hstep.1
  | error f t =>
    rw [h] at hstep
    rw [EStateM.bind_of_error h]
    exact hstep

theorem Safe.pure {a : α} (h : Q a) : Safe img (Pure.pure a) Q := fun _ hs => ⟨hs, h⟩

theorem Safe.throw {f : Fault} (h : f.isLinking = false) : Safe img (throw f) Q := fun _ hs => ⟨hs, h⟩

theorem Safe.get : Safe img get fun s => s.InRange img := fun _ hs => ⟨hs, hs⟩

theorem Safe.modify {f : State → State} (h : ∀ s : State, s.InRange img → (f s).InRange img) :
    Safe img (modify f) fun _ => True :=
  fun s hs => ⟨h s hs, trivial⟩

theorem safe_push {v : Value} (h : v.Labelled img) : Safe img (push v) fun _ => True := by
  refine .modify fun s hs => { hs with stack := fun u hu => ?_ }
  rcases List.mem_cons.mp hu with rfl | hu
  · exact h
  · exact hs.stack u hu

theorem safe_pop (instruction : String) : Safe img (pop instruction) fun v => v.Labelled img := by
  refine Safe.get.bind fun s hs => ?_
  split
  · rename_i v rest hstack
    have hlabelled := hs.stack
    rw [hstack] at hlabelled
    refine Safe.bind (.modify fun t ht => { ht with stack := fun u hu => ?_ }) fun _ _ => .pure ?_
    · exact hlabelled u (List.mem_cons_of_mem _ hu)
    · exact hlabelled v (List.mem_cons_self ..)
  · exact .throw rfl

theorem safe_checked {e : Except Fault α} (h : ∀ f, e = .error f → f.isLinking = false) :
    Safe img (checked e) fun _ => True := by
  cases e with
  | ok a => exact .pure trivial
  | error f => exact .throw (h f rfl)

theorem safe_popInteger (instruction : String) : Safe img (popInteger instruction) fun _ => True := by
  refine (safe_pop instruction).bind fun v _ => ?_
  cases v with
  | integer n => exact .pure trivial
  | _ => exact .throw rfl

theorem safe_popReal (instruction : String) : Safe img (popReal instruction) fun _ => True := by
  refine (safe_pop instruction).bind fun v _ => ?_
  cases v with
  | real x => exact .pure trivial
  | integer n => exact .pure trivial
  | _ => exact .throw rfl

theorem safe_popString (instruction : String) : Safe img (popString instruction) fun _ => True := by
  refine (safe_pop instruction).bind fun v _ => ?_
  cases v with
  | string s => exact .pure trivial
  | _ => exact .throw rfl

theorem safe_popAddress (instruction : String) : Safe img (popAddress instruction) img.IsLabel := by
  refine (safe_pop instruction).bind fun v hv => ?_
  cases v with
  | address a => exact .pure hv
  | _ => exact .throw rfl

theorem safe_popSlot (instruction : String) : Safe img (popSlot instruction) fun _ => True := by
  refine (safe_popInteger instruction).bind fun n _ => ?_
  split
  · exact .pure trivial
  · exact .throw rfl

theorem safe_slotOr (slot : Option Nat) (instruction : String) :
    Safe img (slotOr slot instruction) fun _ => True := by
  cases slot with
  | some n => exact .pure trivial
  | none => exact safe_popSlot instruction

theorem safe_checkSlot (slot : Nat) : Safe img (checkSlot slot) fun _ => slot < maxGlobals := by
  unfold checkSlot
  split
  · rename_i h
    exact .pure h
  · exact .throw rfl

theorem safe_loadGlobal (slot : Nat) : Safe img (loadGlobal slot) fun v => v.Labelled img := by
  refine (safe_checkSlot slot).bind fun _ _ => Safe.get.bind fun s hs => .pure ?_
  cases h : s.globals[slot]? with
  | none => trivial
  | some v => exact hs.globals v (Array.mem_of_getElem? h)

/-- The slots that come into being below the one that is written hold zeros. -/
theorem safe_storeGlobal (slot : Nat) {v : Value} (hv : v.Labelled img) :
    Safe img (storeGlobal slot v) fun _ => True := by
  refine (safe_checkSlot slot).bind fun _ hslot => .modify fun s hs => { hs with globals := ?_, size := ?_ }
  · intro u hu
    rcases Array.mem_or_eq_of_mem_setIfInBounds hu with hu | rfl
    · rcases Array.mem_append.mp hu with hu | hu
      · exact hs.globals u hu
      · rw [Array.eq_of_mem_replicate hu]
        trivial
    · exact hv
  · have hsize := hs.size
    rw [Array.size_setIfInBounds, Array.rightpad, Array.size_append, Array.size_replicate]
    omega

theorem safe_top (count : Nat) (instruction : String) :
    Safe img (top count instruction) fun vs => ∀ v ∈ vs, v.Labelled img := by
  refine Safe.get.bind fun s hs => ?_
  have htake : ∀ v ∈ s.stack.take count, v.Labelled img := fun v hv => hs.stack v (List.mem_of_mem_take hv)
  dsimp only
  split
  · exact Safe.bind (Q := fun _ => True) (.throw rfl) fun _ _ => .pure htake
  · exact .pure htake

theorem safe_duplicate (count : Nat) (instruction : String) :
    Safe img (duplicate count instruction) fun _ => True := by
  refine (safe_top count instruction).bind fun vs hvs => .modify fun s hs => { hs with stack := fun v hv => ?_ }
  rcases List.mem_append.mp hv with hv | hv
  · exact hvs v hv
  · exact hs.stack v hv

theorem safe_discard (count : Nat) (instruction : String) :
    Safe img (discard count instruction) fun _ => True := by
  refine (safe_top count instruction).bind fun _ _ => .modify fun s hs => { hs with stack := fun v hv => ?_ }
  exact hs.stack v (List.mem_of_mem_drop hv)

theorem safe_write (text : String) : Safe img (write text) fun _ => True := .modify fun _ hs => { hs with }

theorem safe_readLine : Safe img readLine fun _ => True := by
  refine Safe.get.bind fun s _ => ?_
  dsimp only
  refine Safe.bind (.modify fun _ hs => { hs with }) fun _ _ => ?_
  split
  · exact .pure trivial
  · exact .throw rfl

end Exec

open Exec

section
variable {img : Image}

theorem Arith.eval_not_isLinking {o : Arith} {a b : Int64} {f : Fault} (h : o.eval a b = .error f) :
    f.isLinking = false := by
  cases o with
  | add | sub | mul => cases h
  | div =>
    rw [Arith.eval] at h
    split at h <;> cases h
    rfl
  | mod =>
    rw [Arith.eval] at h
    split at h <;> cases h
    rfl

theorem RealArith.eval_not_isLinking {o : RealArith} {a b : Float} {f : Fault} (h : o.eval a b = .error f) :
    f.isLinking = false := by
  cases o with
  | add | sub | mul => cases h
  | div =>
    rw [RealArith.eval] at h
    split at h <;> cases h
    rfl

/-- Values that are no addresses are pushed, and addresses only vanish. -/
theorem Basic.safe_execPlain (b : Basic) : Safe img b.execPlain fun _ => True := by
  cases b with
  | call | ret | start | stop | nop => exact .pure trivial
  | arith o =>
    exact (safe_popInteger _).bind fun _ _ => (safe_popInteger _).bind fun _ _ =>
      (safe_checked fun _ => Arith.eval_not_isLinking).bind fun _ _ => safe_push trivial
  | realArith o =>
    exact (safe_popReal _).bind fun _ _ => (safe_popReal _).bind fun _ _ =>
      (safe_checked fun _ => RealArith.eval_not_isLinking).bind fun _ _ => safe_push trivial
  | order o =>
    exact (safe_popInteger _).bind fun _ _ => (safe_popInteger _).bind fun _ _ => safe_push trivial
  | realOrder o =>
    exact (safe_popReal _).bind fun _ _ => (safe_popReal _).bind fun _ _ => safe_push trivial
  | itof | ftoi => exact (safe_popReal _).bind fun _ _ => safe_push trivial
  | equal | and | or => exact (safe_pop _).bind fun _ _ => (safe_pop _).bind fun _ _ => safe_push trivial
  | not => exact (safe_pop _).bind fun _ _ => safe_push trivial
  | writei => exact (safe_popInteger _).bind fun _ _ => safe_write _
  | writef => exact (safe_popReal _).bind fun _ _ => safe_write _
  | writes => exact (safe_popString _).bind fun _ _ => safe_write _
  | writechr =>
    refine (safe_popInteger _).bind fun code _ => ?_
    split
    · exact safe_write _
    · exact .throw rfl
  | writeln => exact safe_write _
  | read => exact safe_readLine.bind fun _ _ => safe_push trivial
  | atoi | atof =>
    refine (safe_popString _).bind fun text _ => ?_
    split
    · exact safe_push trivial
    · exact .throw rfl
  | strlen => exact (safe_popString _).bind fun _ _ => safe_push trivial
  | charat =>
    refine (safe_popInteger _).bind fun index _ => (safe_popString _).bind fun text _ => ?_
    split
    · exact safe_push trivial
    · exact .throw rfl

end

section
variable {img : Image} {p q : Nat} {s t : State}

/-- An instruction of linked code goes on in the code and keeps the machine in range. -/
theorem Image.Linked.exec_safe (hl : img.Linked) {op : Op Nat} (hop : img.code[p]? = some (.ok op)) :
    Safe img (op.exec p) fun flow => flow.InRange img := by
  obtain ⟨i, hi, hdecode⟩ := Image.instruction_of_code hop
  obtain ⟨hopcode, htarget⟩ := Image.decode_ok hdecode
  have hlabel : ∀ a, op.position? = some a → img.IsLabel a := fun a ha =>
    Image.targetOf_isLabel (htarget a ha)
  have hp : p < img.instructions.size := (Array.getElem?_eq_some_iff.mp hi).1
  have hnext : (Flow.goto (p + 1)).InRange img := hp
  have hgoto : ∀ a, img.IsLabel a → (Flow.goto a).InRange img := hl.labels
  cases op with
  | pushi n => exact Safe.bind (safe_push trivial) fun _ _ => .pure hnext
  | pushf x => exact Safe.bind (safe_push trivial) fun _ _ => .pure hnext
  | pushs text => exact Safe.bind (safe_push trivial) fun _ _ => .pure hnext
  | pusha target => exact Safe.bind (safe_push (hlabel target rfl)) fun _ _ => .pure hnext
  | pushn count =>
    refine Safe.bind (.modify fun s hs => { hs with stack := fun v hv => ?_ }) fun _ _ => .pure hnext
    rcases List.mem_append.mp hv with hv | hv
    · rw [List.eq_of_mem_replicate hv]
      trivial
    · exact hs.stack v hv
  | pushg slot =>
    exact (safe_slotOr _ _).bind fun _ _ => (safe_loadGlobal _).bind fun _ hv =>
      (safe_push hv).bind fun _ _ => .pure hnext
  | storeg slot =>
    exact (safe_slotOr _ _).bind fun _ _ => (safe_pop _).bind fun _ hv =>
      (safe_storeGlobal _ hv).bind fun _ _ => .pure hnext
  | load offset =>
    exact (safe_popSlot _).bind fun _ _ => (safe_loadGlobal _).bind fun _ hv =>
      (safe_push hv).bind fun _ _ => .pure hnext
  | pop count => exact (safe_discard _ _).bind fun _ _ => .pure hnext
  | dup count => exact (safe_duplicate _ _).bind fun _ _ => .pure hnext
  | jump target => exact .pure (hgoto target (hlabel target rfl))
  | jz target =>
    refine (safe_pop _).bind fun v _ => .pure ?_
    unfold Exec.branch
    split
    · exact hgoto target (hlabel target rfl)
    · exact hnext
  | basic b =>
    cases b with
    | call =>
      -- the return address is the position behind this instruction
      have hreturn : img.IsReturn (p + 1) := ⟨Nat.le_add_left .., hp, i, hi, hopcode.symm⟩
      refine (safe_popAddress _).bind fun a ha =>
        Safe.bind (.modify fun s hs => { hs with calls := fun r hr => ?_ }) fun _ _ => .pure (hgoto a ha)
      rcases List.mem_cons.mp hr with rfl | hr
      · exact hreturn
      · exact hs.calls r hr
    | ret =>
      refine Safe.get.bind fun s hs => ?_
      split
      · rename_i back rest hcalls
        have hreturns := hs.calls
        rw [hcalls] at hreturns
        refine Safe.bind (.modify fun t ht => { ht with calls := fun r hr => ?_ }) fun _ _ => .pure ?_
        · exact hreturns r (List.mem_cons_of_mem _ hr)
        · exact (hreturns back (List.mem_cons_self ..)).2.1
      · exact .throw rfl
    | stop => exact .pure trivial
    | _ => exact (Basic.safe_execPlain _).bind fun _ _ => .pure hnext

/-! ## runs -/

/-- One step. -/
theorem Image.Linked.step_safe (hl : img.Linked) {status : Status} (h : step img.code p s = (status, t))
    (hs : s.InRange img) : t.InRange img ∧ status.InRange img := by
  unfold step at h
  split at h
  · cases h
    exact ⟨hs, trivial⟩
  · rename_i f herror
    cases h
    exact ⟨hs, hl.code_error herror⟩
  · rename_i op hop
    have hsafe := hl.exec_safe hop s hs
    split at h <;> rename_i hexec <;> rw [hexec] at hsafe <;> cases h <;> exact hsafe

/-- A number of steps. -/
theorem Image.Linked.runFrom_safe (hl : img.Linked) (fuel : Nat) (hp : p ≤ img.instructions.size)
    (hs : s.InRange img) :
    (runFrom img.code fuel p s).2.InRange img ∧ (runFrom img.code fuel p s).1.InRange img := by
  induction fuel generalizing p s with
  | zero =>
    unfold runFrom
    split
    · exact ⟨hs, hp⟩
    · exact ⟨hs, trivial⟩
  | succ fuel ih =>
    unfold runFrom
    split
    · rename_i next t hstep
      obtain ⟨ht, hnext⟩ := hl.step_safe hstep hs
      exact ih hnext ht
    · exact hl.step_safe rfl hs

theorem Image.Linked.reaches_inRange (hl : img.Linked) (h : Reaches img.code p s q t)
    (hp : p ≤ img.instructions.size) (hs : s.InRange img) : q ≤ img.instructions.size ∧ t.InRange img := by
  induction h with
  | refl => exact ⟨hp, hs⟩
  | step _ hstep _ ih =>
    obtain ⟨hs', hp'⟩ := hl.step_safe hstep hs
    exact ih hp' hs'

/-- Runs one after the other, whatever became of each. -/
theorem Image.Linked.afterRuns_inRange (hl : img.Linked) (limits : List (Option Nat)) (hs : s.InRange img) :
    (afterRuns img.code limits s).InRange img := by
  induction limits generalizing s with
  | nil => exact hs
  | cons limit rest ih => exact ih (hl.runFrom_safe _ (Nat.zero_le _) hs).1

end

theorem State.initial_inRange (img : Image) (input : List UInt8) : (State.initial input).InRange img :=
  ⟨nofun, nofun, Nat.zero_le _, nofun⟩

/-- **Loading checks all that a run relies on.**  However often the machine of a loaded text is run, on
whatever input and with whatever limits, and also after runs that failed: no run stops with a fault of
linking, control stays inside of the code, every address is the position of a label, the return stack
leads back behind calls, and there are no more global slots than allowed. -/
theorem load_inRange {text : String} {img : Image} (hload : load text = .ok img) (input : List UInt8)
    (limits : List (Option Nat)) (limit : Option Nat) :
    (∀ f, (run img.code limit (afterRuns img.code limits (.initial input))).1 = some f →
      f.isLinking = false) ∧
    ∀ q t, Reaches img.code 0 (afterRuns img.code limits (.initial input)) q t →
      q ≤ img.instructions.size ∧ t.InRange img := by
  have hl := load_linked hload
  have hs := hl.afterRuns_inRange limits (State.initial_inRange img input)
  refine ⟨fun f hf => ?_, fun q t h => hl.reaches_inRange h (Nat.zero_le _) hs⟩
  have hrun := (hl.runFrom_safe (limit.getD unlimited) (Nat.zero_le _) hs).2
  unfold run at hf
  dsimp only at hf
  cases hstatus : (runFrom img.code (limit.getD unlimited) 0 (afterRuns img.code limits (.initial input))).1 with
  | finished =>
    rw [hstatus] at hf
    cases hf
  | failed g =>
    rw [hstatus] at hf hrun
    cases hf
    exact hrun
  | suspended q =>
    rw [hstatus] at hf
    cases hf
    rfl

/-- Code that keeps the address of a label in a slot, calls it from there and then fails. -/
def failingText : String :=
  "start\npusha f\nstoreg 3\npushg 3\ncall\npushi 1\npushi 0\ndiv\nstop\nf:\nreturn"

def failingImage : Image where
  instructions := #[⟨.basic .start, none, 1⟩, ⟨.pusha, some "f", 2⟩, ⟨.storeg, some "3", 3⟩,
    ⟨.pushg, some "3", 4⟩, ⟨.basic .call, none, 5⟩, ⟨.pushi, some "1", 6⟩, ⟨.pushi, some "0", 7⟩,
    ⟨.basic (.arith .div), none, 8⟩, ⟨.basic .stop, none, 9⟩, ⟨.basic .ret, none, 11⟩]
  labels := [("f", 9)]

theorem load_failingText : load failingText = .ok failingImage := by rfl

/-- After a run that failed and one that was cut off inside of a call, an address is left in a slot and a
return address on the return stack. -/
theorem load_inRange_failing :
    load failingText = .ok failingImage ∧
    (run failingImage.code none (.initial [])).1 = some .divisionByZero ∧
    (afterRuns failingImage.code [none, some 5] (.initial [])).globals[3]? = some (.address 9) ∧
    (afterRuns failingImage.code [none, some 5] (.initial [])).calls = [5] ∧
    (∀ f, (run failingImage.code none (afterRuns failingImage.code [none, some 5] (.initial []))).1 = some f →
      f.isLinking = false) ∧
    ∀ q t, Reaches failingImage.code 0 (afterRuns failingImage.code [none, some 5] (.initial [])) q t →
      q ≤ failingImage.instructions.size ∧ t.InRange failingImage := by
  refine ⟨load_failingText, ?_, ?_, ?_, load_inRange load_failingText [] [none, some 5] none⟩
  · decide +kernel
  · decide +kernel
  · decide +kernel

end PascalStack
