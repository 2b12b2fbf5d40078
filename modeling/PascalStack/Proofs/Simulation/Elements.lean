import PascalStack.Proofs.Compiler.Listing
import PascalStack.Proofs.Simulation.Activations
import PascalStack.Proofs.Simulation.Indirect
import PascalStack.Proofs.Simulation.Literals

/-!
# Elements of arrays

The slot of an element is computed from its index without a look at the bounds of the array.  The machine
only asks that there is such a slot.

* `Variable.reach`, `Variable.elementSlot?`   the slot of an element, for every index;
* `elementSlot?_mem_iff`   it is one of the array if and only if the index is within the bounds;
* `ElementAccess`          what the code of an access does with an index;
* `element_access`         accesses to elements in compiled code;
* `overrunSource_prints`   an index beyond the bounds reaches the variable after the array.
-/

namespace PascalStack

/-! ## slots of elements -/

namespace Variable

/-- The number that is computed from an index, in machine integers. -/
def reach (v : Variable) (i : Int64) : Int64 := i - v.low + Int64.ofNat v.slot

/-- The slot that is reached with an index, if there is one. -/
def elementSlot? (v : Variable) (i : Int64) : Option Nat :=
  if 0 ≤ (v.reach i).toInt ∧ (v.reach i).toInt < maxGlobals then some (v.reach i).toInt.toNat else none

variable {v : Variable} {i : Int64} {n : Nat}

theorem elementSlot?_eq_some : v.elementSlot? i = some n ↔ (v.reach i).toInt = n ∧ n < maxGlobals := by
  unfold elementSlot?
  split
  · rename_i h
    rw [Option.some.injEq]
    omega
  · rename_i h
    refine ⟨nofun, fun hn => absurd ?_ h⟩
    omega

/-- Numbers that differ by a multiple of the number of words are the same machine integer. -/
theorem reach_add_mul (v : Variable) (i : Int64) :
    ∃ k : Int, (v.reach i).toInt + k * 18446744073709551616 = i.toInt - v.low.toInt + v.slot := by
  unfold reach
  rw [Int64.toInt_add, Int64.toInt_sub, Int64.toInt_ofNat']
  simp only [Int.bmod_add_bmod, Int.add_bmod_bmod]
  have h := Int.bmod_add_bdiv (i.toInt - v.low.toInt + v.slot) (2 ^ 64)
  exact ⟨_, by rw [Int.mul_comm]; exact h⟩

/-- Within the bounds `low` to `high` the elements have the slots from that of the array on. -/
theorem elementSlot?_of_mem {high : Int64} (hlow : v.low ≤ i) (hhigh : i ≤ high)
    (hstop : v.slot + (high.toInt - v.low.toInt + 1).toNat ≤ maxGlobals) :
    v.elementSlot? i = some (v.slot + (i.toInt - v.low.toInt).toNat) := by
  rw [Int64.le_iff_toInt_le] at hlow hhigh
  obtain ⟨k, hk⟩ := v.reach_add_mul i
  have hmax : maxGlobals = 1048576 := rfl
  have hlt := (v.reach i).toInt_lt
  have hle := (v.reach i).le_toInt
  rw [elementSlot?_eq_some]
  omega

/-- **A slot is one of the array if and only if it was reached with an index within the bounds.** -/
theorem elementSlot?_mem_iff {high : Int64} (h : v.elementSlot? i = some n)
    (hstop : v.slot + (high.toInt - v.low.toInt + 1).toNat ≤ wordSize) :
    (v.slot ≤ n ∧ n < v.slot + (high.toInt - v.low.toInt + 1).toNat) ↔ v.low ≤ i ∧ i ≤ high := by
  obtain ⟨hn, hlt⟩ := elementSlot?_eq_some.mp h
  obtain ⟨k, hk⟩ := v.reach_add_mul i
  have hmax : maxGlobals = 1048576 := rfl
  have hword : wordSize = 18446744073709551616 := rfl
  have hi := i.toInt_lt
  have hi' := i.le_toInt
  have hh := high.toInt_lt
  have hl := v.low.le_toInt
  rw [Int64.le_iff_toInt_le, Int64.le_iff_toInt_le]
  omega

end Variable

/-! ## the code of an access -/

section
variable (code : Code)

/-- The code of an access to an element of `v`: it starts at `j` with the index on the stack, and the access
itself is `o`, four instructions later.

* `computes`   the index is replaced by the number of a slot;
* `rejects`    a value that is no integer stops the run;
* `stops`      so does a number that no slot has;
* `loads`, `stores`   otherwise that slot is read or written, and no other. -/
structure ElementAccess (j : Nat) (o : Op Nat) (v : Variable) : Prop where
  computes : ∀ {s i rest}, s.stack = .integer i :: rest →
    runFrom code 4 j s = (.suspended (j + 4), { s with stack := .integer (v.reach i) :: rest })
  rejects : ∀ {s u rest}, s.stack = u :: rest → (∀ i, u ≠ .integer i) →
    runFrom code 2 j s = (.failed (.typeError "sub" (.unexpected .integer u)), { s with stack := rest })
  stops : ∀ {s i rest}, s.stack = .integer (v.reach i) :: rest → v.elementSlot? i = none →
    step code (j + 4) s = (.failed (.invalidAddress (v.reach i)), { s with stack := rest })
  loads : o = .pushg none → ∀ {s i rest n}, s.stack = .integer (v.reach i) :: rest → v.elementSlot? i = some n →
    step code (j + 4) s = (.suspended (j + 5), { s with stack := s.memory.slots n :: rest })
  stores : o = .storeg none → ∀ {s i u rest n}, s.stack = .integer (v.reach i) :: u :: rest →
    v.elementSlot? i = some n → ∃ t, step code (j + 4) s = (.suspended (j + 5), t) ∧
      t.stack = rest ∧ t.calls = s.calls ∧ t.memory = s.memory.set n u

variable {code} {j : Nat} {v : Variable}

structure AddressAt (code : Code) (j : Nat) (v : Variable) : Prop where
  low : code[j]? = some (.ok (.pushi v.low))
  minus : code[j + 1]? = some (.ok (.basic (.arith .sub)))
  base : code[j + 2]? = some (.ok (.pushi (Int64.ofNat v.slot)))
  plus : code[j + 3]? = some (.ok (.basic (.arith .add)))

theorem AddressAt.computes (h : AddressAt code j v) {s : State} {i : Int64} {rest : List Value}
    (hs : s.stack = .integer i :: rest) (fuel : Nat) :
    runFrom code (fuel + 4) j s =
      runFrom code fuel (j + 4) { s with stack := .integer (v.reach i) :: rest } := by
  obtain ⟨stack, globals, calls, input, output⟩ := s
  cases hs
  have h₁ : step code j ⟨.integer i :: rest, globals, calls, input, output⟩ =
      (.suspended (j + 1), ⟨.integer v.low :: .integer i :: rest, globals, calls, input, output⟩) := by
    rw [step, h.low]
    rfl
  have h₂ : step code (j + 1) ⟨.integer v.low :: .integer i :: rest, globals, calls, input, output⟩ =
      (.suspended (j + 2), ⟨.integer (i - v.low) :: rest, globals, calls, input, output⟩) := by
    rw [step, h.minus]
    rfl
  have h₃ : step code (j + 2) ⟨.integer (i - v.low) :: rest, globals, calls, input, output⟩ =
      (.suspended (j + 3),
        ⟨.integer (Int64.ofNat v.slot) :: .integer (i - v.low) :: rest, globals, calls, input, output⟩) := by
    rw [step, h.base]
    rfl
  have h₄ : step code (j + 3)
      ⟨.integer (Int64.ofNat v.slot) :: .integer (i - v.low) :: rest, globals, calls, input, output⟩ =
      (.suspended (j + 4), ⟨.integer (v.reach i) :: rest, globals, calls, input, output⟩) := by
    rw [step, h.plus]
    rfl
  rw [runFrom, h₁]
  show runFrom code (fuel + 3) (j + 1) _ = _
  rw [runFrom, h₂]
  show runFrom code (fuel + 2) (j + 2) _ = _
  rw [runFrom, h₃]
  show runFrom code (fuel + 1) (j + 3) _ = _
  rw [runFrom, h₄]

theorem AddressAt.rejects (h : AddressAt code j v) {s : State} {u : Value} {rest : List Value}
    (hs : s.stack = u :: rest) (hu : ∀ i, u ≠ .integer i) :
    runFrom code 2 j s = (.failed (.typeError "sub" (.unexpected .integer u)), { s with stack := rest }) := by
  obtain ⟨stack, globals, calls, input, output⟩ := s
  cases hs
  have h₁ : step code j ⟨u :: rest, globals, calls, input, output⟩ =
      (.suspended (j + 1), ⟨.integer v.low :: u :: rest, globals, calls, input, output⟩) := by
    rw [step, h.low]
    rfl
  have h₂ : step code (j + 1) ⟨.integer v.low :: u :: rest, globals, calls, input, output⟩ =
      (.failed (.typeError "sub" (.unexpected .integer u)), ⟨rest, globals, calls, input, output⟩) := by
    rw [step, h.minus]
    cases u with
    | integer i => exact absurd rfl (hu i)
    | _ => rfl
  rw [runFrom, h₁]
  show runFrom code 1 (j + 1) _ = _
  rw [runFrom, h₂]

open Exec in
/-- The number on top of the stack, as a slot. -/
theorem popSlot_reach {s : State} {i : Int64} {rest : List Value} (name : String)
    (hs : s.stack = .integer (v.reach i) :: rest) :
    (∀ n, v.elementSlot? i = some n → popSlot name s = .ok n { s with stack := rest }) ∧
      (v.elementSlot? i = none → popSlot name s = .error (.invalidAddress (v.reach i)) { s with stack := rest }) := by
  have hpop : popSlot name s =
      (if 0 ≤ (v.reach i).toInt ∧ (v.reach i).toInt < maxGlobals then pure (v.reach i).toInt.toNat
        else throw (.invalidAddress (v.reach i)) : Exec Nat) { s with stack := rest } :=
    EStateM.bind_of_ok ((popInteger_of_cons hs).trans rfl)
  rw [hpop]
  unfold Variable.elementSlot?
  split
  · refine ⟨fun n hn => ?_, nofun⟩
    cases hn
    rfl
  · exact ⟨nofun, fun _ => rfl⟩

theorem AddressAt.elementAccess {o : Op Nat} (h : AddressAt code j v) (hop : code[j + 4]? = some (.ok o))
    (ho : o = .pushg none ∨ o = .storeg none) : ElementAccess code j o v where
  computes hs := by
    rw [h.computes hs 0, runFrom, if_pos]
    exact (Array.getElem?_eq_some_iff.mp hop).1
  rejects := h.rejects
  stops := by
    intro s i rest hs hnone
    have hpop name := (popSlot_reach name hs).2 hnone
    refine step_of_error hop ?_
    rcases ho with rfl | rfl
    · exact EStateM.bind_of_error (hpop "pushg")
    · exact EStateM.bind_of_error (hpop "storeg")
  loads := by
    rintro rfl s i rest n hs hn
    have hpop := (popSlot_reach "pushg" hs).1 n hn
    have hload := Exec.loadGlobal_eq n { s with stack := rest }
    rw [if_pos (Variable.elementSlot?_eq_some.mp hn).2] at hload
    exact step_of_ok hop ((EStateM.bind_of_ok hpop).trans (EStateM.bind_of_ok hload))
  stores := by
    rintro rfl s i u rest n hs hn
    have hpop := (popSlot_reach "storeg" hs).1 n hn
    have hvalue : Exec.pop "storeg" { s with stack := u :: rest } = .ok u { s with stack := rest } :=
      Exec.pop_of_cons rfl
    obtain ⟨t, hstore, hstack, hcalls, hmemory⟩ :=
      (Exec.storeGlobal_eq n u { s with stack := rest }).1 (Variable.elementSlot?_eq_some.mp hn).2
    refine ⟨t, step_of_ok hop ?_, hstack, hcalls, hmemory⟩
    exact (EStateM.bind_of_ok hpop).trans ((EStateM.bind_of_ok hvalue).trans (EStateM.bind_of_ok hstore))

end

/-! ## positions in compiled code -/

theorem instructionCount_append (a b : List Line) :
    instructionCount (a ++ b) = instructionCount a + instructionCount b := by
  unfold instructionCount
  rw [List.filter_append, List.length_append]

/-- An instruction of the listing is that of a line. -/
theorem listing_getElem? (number : Nat) (before : List Line) (o : Op String) (after : List Line) :
    (listing number (before ++ .op o :: after))[instructionCount before]? =
      some ⟨o.opcode, o.operand, number + before.length⟩ := by
  induction before generalizing number with
  | nil => rfl
  | cons line before ih =>
    have hnumber : number + 1 + before.length = number + (line :: before).length := by
      rw [List.length_cons]
      omega
    rw [← hnumber]
    cases line with
    | label name => exact ih (number + 1)
    | op o' => exact ih (number + 1)

theorem exists_line {number k : Nat} {lines : List Line} (h : k < (listing number lines).length) :
    ∃ before o after, lines = before ++ .op o :: after ∧ instructionCount before = k := by
  induction lines generalizing number k with
  | nil => exact absurd h (Nat.not_lt_zero k)
  | cons line rest ih =>
    cases line with
    | label name =>
      obtain ⟨before, o, after, rfl, hk⟩ := ih h
      exact ⟨.label name :: before, o, after, rfl, hk⟩
    | op o =>
      cases k with
      | zero => exact ⟨[], o, rest, rfl, rfl⟩
      | succ k =>
        obtain ⟨before, o', after, rfl, hk⟩ := ih (Nat.lt_of_succ_lt_succ h)
        exact ⟨.op o :: before, o', after, rfl, congrArg (· + 1) hk⟩

theorem imageOf_code {lines before after : List Line} {o : Op String} (h : lines = before ++ .op o :: after) :
    (imageOf lines).code[instructionCount before]? =
      some ((imageOf lines).decode ⟨o.opcode, o.operand, 1 + before.length⟩) := by
  unfold Image.code
  rw [Array.getElem?_map]
  have hlisting : (imageOf lines).instructions[instructionCount before]? =
      some ⟨o.opcode, o.operand, 1 + before.length⟩ := by
    rw [imageOf, List.getElem?_toArray, h]
    exact listing_getElem? 1 before o after
  rw [hlisting]
  rfl

/-- An instruction that names no label is read as it was written. -/
theorem imageOf_code_of_fits {lines before after : List Line} {o : Op String}
    (h : lines = before ++ .op o :: after) (hfits : o.fits = true) (htarget : o.target? = none) :
    ∃ op, o.resolve? (imageOf lines).target? = some op ∧
      (imageOf lines).code[instructionCount before]? = some (.ok op) := by
  have ht : ∀ t, o.target? = some t → ∃ q, (imageOf lines).target? t = some q := by
    intro t ht
    rw [htarget] at ht
    cases ht
  rw [imageOf_code h]
  obtain ⟨op, hop, hdecode⟩ := decode_op hfits ht
  exact ⟨op, hop, congrArg some hdecode⟩

theorem addressAt_imageOf {lines first rest : List Line} {v : Variable}
    (h : lines = first ++ addressCode v ++ rest) : AddressAt (imageOf lines).code (instructionCount first) v := by
  have hat (k : Nat) (ops : List (Op String)) {o : Op String} {more : List Line}
      (hlines : addressCode v ++ rest = emit ops ++ .op o :: more) (hk : instructionCount (emit ops) = k)
      (hfits : o.fits = true) (htarget : o.target? = none) :
      ∃ op, o.resolve? (imageOf lines).target? = some op ∧
        (imageOf lines).code[instructionCount first + k]? = some (.ok op) := by
    rw [List.append_assoc, hlines, ← List.append_assoc] at h
    rw [← hk, ← instructionCount_append]
    exact imageOf_code_of_fits h hfits htarget
  obtain ⟨_, ho₀, h₀⟩ := hat 0 [] rfl rfl rfl rfl
  obtain ⟨_, ho₁, h₁⟩ := hat 1 [.pushi v.low] rfl rfl rfl rfl
  obtain ⟨_, ho₂, h₂⟩ := hat 2 [.pushi v.low, .basic (.arith .sub)] rfl rfl rfl rfl
  obtain ⟨_, ho₃, h₃⟩ := hat 3 [.pushi v.low, .basic (.arith .sub), .pushi (Int64.ofNat v.slot)]
    rfl rfl rfl rfl
  cases ho₀
  cases ho₁
  cases ho₂
  cases ho₃
  exact ⟨h₀, h₁, h₂, h₃⟩

theorem eq_of_return_eq_ok {α β : Type} {e : Except Fault α} {g : α → β} {b : β}
    (h : (e >>= fun a => pure (g a)) = .ok b) : ∃ a, e = .ok a ∧ b = g a := by
  cases e with
  | ok a =>
    cases h
    exact ⟨a, rfl, rfl⟩
  | error f => cases h

/-- Whether the slot is on the stack can be read off an instruction as it is written. -/
theorem decode_isIndirect {img : Image} {o : Op String} {number : Nat} {op : Op Nat}
    (h : img.decode ⟨o.opcode, o.operand, number⟩ = .ok op) : op.isIndirect = o.isIndirect := by
  have hslot {opcode : Opcode} {n : Nat} {slot : Option Nat}
      (hs : (⟨opcode, some (naturalText n), number⟩ : Instruction).slot = .ok slot) : ∃ m, slot = some m := by
    obtain ⟨m, _, rfl⟩ := eq_of_return_eq_ok hs
    exact ⟨m, rfl⟩
  cases o with
  | pushg slot | storeg slot =>
    obtain ⟨slot', hs, rfl⟩ := eq_of_return_eq_ok h
    cases slot with
    | none =>
      cases hs
      rfl
    | some n =>
      obtain ⟨m, rfl⟩ := hslot hs
      rfl
  | basic b =>
    cases h
    rfl
  | _ =>
    obtain ⟨_, _, rfl⟩ := eq_of_return_eq_ok h
    rfl

/-- The code before an instruction that takes its slot from the stack. -/
theorem Indexed.addressAt {A : Variable → Prop} {lines : List Line} {k : Nat} {o : Op Nat}
    (h : Indexed A lines) (hop : (imageOf lines).code[k]? = some (.ok o)) (ho : o.isIndirect = true) :
    ∃ j v, k = j + 4 ∧ A v ∧ AddressAt (imageOf lines).code j v ∧ (o = .pushg none ∨ o = .storeg none) := by
  have hk : k < (listing 1 lines).length := by
    obtain ⟨hk, _⟩ := Array.getElem?_eq_some_iff.mp hop
    simpa [Image.code, imageOf] using hk
  obtain ⟨before, o', after, hlines, rfl⟩ := exists_line hk
  rw [imageOf_code hlines, Option.some.injEq] at hop
  obtain ⟨first, v, rfl, hv, ho'⟩ := h.split hlines ((decode_isIndirect hop).symm.trans ho)
  refine ⟨instructionCount first, v, instructionCount_append .., hv, addressAt_imageOf hlines, ?_⟩
  rcases ho' with rfl | rfl
  · cases hop
    exact .inl rfl
  · cases hop
    exact .inr rfl

/-! ## arrays in compiled code -/

/-- All slots up to the end of a region are named. -/
theorem Consecutive.named {n : Nat} {log : List Region} {names : List Nat} (h : Consecutive n log)
    (hnamed : ∀ g ∈ log, ∀ i < g.size, g.slot + i ∈ names) (hn : ∀ m < n, m ∈ names) :
    ∀ g ∈ log, ∀ m < g.slot + g.size, m ∈ names := by
  induction log generalizing n with
  | nil => nofun
  | cons g log ih =>
    obtain ⟨hslot, hrest⟩ := h
    have hfirst : ∀ m < n + g.size, m ∈ names := by
      intro m hm
      by_cases hlt : m < n
      · exact hn m hlt
      · have hi := hnamed g (List.mem_cons_self ..) (m - n) (by omega)
        rwa [hslot, Nat.add_sub_cancel' (Nat.not_lt.mp hlt)] at hi
    intro g' hg'
    rcases List.mem_cons.mp hg' with rfl | hg'
    · rw [hslot]
      exact hfirst
    · exact ih hrest (fun g hg => hnamed g (List.mem_cons_of_mem _ hg)) hfirst g' hg'

def Region.asVariable (g : Region) : Variable := ⟨g.slot, g.shape⟩

/-- A region is that of an array declared with the bounds `low` and `high`. -/
structure Region.IsArray (p : Program) (L : Layout) (g : Region) (low high : Int64) : Prop where
  declared : ∃ block d lowExpr highExpr element,
    ((g.owner = none ∧ block = p.block) ∨ ∃ r ∈ L.routines, g.owner = some r.activation.name ∧ block = r.block) ∧
      d ∈ block.declarations ∧ g.name ∈ d.names ∧ d.type = .array lowExpr highExpr element ∧
      lowExpr.constant? = some low ∧ highExpr.constant? = some high
  shape : ∃ t, g.shape = .array low t
  size : g.size = (high.toInt - low.toInt + 1).toNat

section
variable {source : String} {code : List Line} {p : Program} {L : Layout} {log : List Region}

theorem Region.DeclaredBy.isArray {g : Region} {block : Block} {d : VarDecl} (h : g.DeclaredBy d.type d.names)
    (hshape : g.asVariable.type = .array) (hd : d ∈ block.declarations)
    (hblock : (g.owner = none ∧ block = p.block) ∨
      ∃ r ∈ L.routines, g.owner = some r.activation.name ∧ block = r.block) :
    ∃ low high, g.IsArray p L low high := by
  rcases h.shape with ⟨t, ht, _, hscalar⟩ |
    ⟨lowExpr, highExpr, element, low, high, t, htype, _, hlow, hhigh, hsize, harray⟩
  · rw [Region.asVariable, Variable.type, hscalar] at hshape
    exact absurd hshape (DataType.ofScalar?_ne_array ht)
  · exact ⟨low, high, ⟨block, d, lowExpr, highExpr, element, hblock, hd, h.name, htype, hlow, hhigh⟩,
      ⟨t, harray⟩, arraySize?_eq hsize⟩

theorem Program.Regions.isArray (h : p.Regions L code log) {g : Region} (hg : g ∈ log)
    (hshape : g.asVariable.type = .array) : ∃ low high, g.IsArray p L low high := by
  rcases h.declared g hg with ⟨_, t, ht, hscalar⟩ | ⟨howner, d, hd, hdecl⟩ | ⟨r, hr, howner, d, hd, hdecl⟩
  · rw [Region.asVariable, Variable.type, hscalar] at hshape
    exact absurd hshape ht
  · exact hdecl.isArray hshape hd (.inl ⟨howner, rfl⟩)
  · exact hdecl.isArray hshape hd (.inr ⟨r, hr, howner, rfl⟩)

/-- The last slot of a region is a word. -/
theorem Program.Regions.stop_le (h : p.Regions L code log) (hwords : code.length < wordSize) :
    ∀ g ∈ log, g.slot + g.size ≤ wordSize := by
  intro g hg
  have hnamed := (h.consecutive hwords).named h.named (fun m hm => absurd hm (Nat.not_lt_zero m)) g hg
  have hle := names_length (slotsOf code) _ hnamed
  have hlength := length_slotsOf code
  omega

/-- An access to an element of one of the arrays of a program, at position `k`.  Its code starts four
instructions before with the index on the stack.

* `within`    an index within the bounds reaches the slot of its element;
* `own`       a slot of the array is reached with an index within its bounds, and with no other. -/
structure AccessAt (p : Program) (L : Layout) (code : Code) (k : Nat) (o : Op Nat) (g : Region)
    (low high : Int64) : Prop where
  array : g.IsArray p L low high
  access : ∃ j, k = j + 4 ∧ ElementAccess code j o g.asVariable
  form : o = .pushg none ∨ o = .storeg none
  within : ∀ {i}, low ≤ i → i ≤ high → g.slot + g.size ≤ maxGlobals →
    g.asVariable.elementSlot? i = some (g.slot + (i.toInt - low.toInt).toNat)
  own : ∀ {i n}, g.asVariable.elementSlot? i = some n → ((g.slot ≤ n ∧ n < g.slot + g.size) ↔ low ≤ i ∧ i ≤ high)

theorem Region.IsArray.accessAt {img : Code} {k j : Nat} {o : Op Nat} {g : Region} {low high : Int64}
    (h : g.IsArray p L low high) (hstop : g.slot + g.size ≤ wordSize) (hk : k = j + 4)
    (ha : ElementAccess img j o g.asVariable) (ho : o = .pushg none ∨ o = .storeg none) :
    AccessAt p L img k o g low high := by
  have hlow : g.asVariable.low = low := by
    obtain ⟨t, ht⟩ := h.shape
    rw [Region.asVariable, Variable.low, ht]
  refine ⟨h, ⟨j, hk, ha⟩, ho, fun hi hi' hmax => ?_, fun hn => ?_⟩
  · rw [h.size, ← hlow] at hmax
    rw [← hlow] at hi ⊢
    exact Variable.elementSlot?_of_mem hi hi' hmax
  · rw [h.size, ← hlow] at hstop ⊢
    exact Variable.elementSlot?_mem_iff hn hstop

/-- **Every access to an element reaches the slot that is counted from its index**, as long as there is one,
whether the index is within the bounds of the array or not. -/
theorem element_access (hcompile : compile source = .ok code) (htree : (report source).accepted = .ok p)
    (hlayout : p.layout? = some L) (hwords : code.length < wordSize) :
    ∃ (img : Image) (log : List Region), load (codeText code) = .ok img ∧
      (∀ owner id v, L.scopes.declared? owner id = some v → ∃ g ∈ log, Region.Of owner id v g) ∧
      (∀ r ∈ L.routines, .ofResult r.activation ∈ log) ∧
      (∀ g ∈ log, ∀ g' ∈ log, g ≠ g' → g.Disjoint g') ∧
      ∀ k o, img.code[k]? = some (.ok o) → o.isIndirect = true →
        ∃ g ∈ log, ∃ low high, AccessAt p L img.code k o g low high := by
  obtain ⟨_, _, log, htree', hlayout', hsound, hregions, hprogram⟩ := compile_code hcompile
  cases htree.symm.trans htree'
  cases hlayout.symm.trans hlayout'
  obtain ⟨_, _, -, -, htargets⟩ := hprogram.labels hsound
  have hload := load_eq_imageOf hprogram.ne_nil (hprogram.readable hsound fun _ hname => hname) htargets
  refine ⟨imageOf code, log, hload, fun owner id v hv => ?_, hregions.results, fun g hg g' hg' =>
    (hregions.consecutive hwords).disjoint hg hg', fun k o hop ho => ?_⟩
  · rcases hregions.allocates.declared? hv with hnone | hof
    · cases owner <;> cases hnone
    · exact hof
  · obtain ⟨j, v, hk, ⟨harray, S, id, hlocals, hglobals, hv⟩, hat, hform⟩ := hprogram.indexed.addressAt hop ho
    obtain ⟨g, hg, _, _, hof⟩ := hregions.resolved hlocals hglobals hv
    have hvariable : g.asVariable = v := by
      unfold Region.asVariable
      rw [hof.slot, hof.shape]
    obtain ⟨low, high, hbounds⟩ := hregions.isArray hg (hvariable ▸ harray)
    rw [hk] at hop
    have haccess : ElementAccess (imageOf code).code j o g.asVariable := hvariable ▸ hat.elementAccess hop hform
    exact ⟨g, hg, low, high, hbounds.accessAt (hregions.stop_le hwords g hg) hk haccess hform⟩

end

/-- An array of one element, a variable after it, and an assignment to an element that is not there. -/
def overrunSource : String :=
  "program p; var a: array[1..1] of integer; x: integer; begin a[2] := 7; writeln(x) end."

/-- What an image of code holds at a position is a store to a slot on the stack. -/
def Image.storesAt (img : Image) (k : Nat) : Bool :=
  match img.code[k]? with
  | some (.ok (.storeg none)) => true
  | _ => false

theorem Image.storesAt_eq_true {img : Image} {k : Nat} (h : img.storesAt k = true) :
    img.code[k]? = some (.ok (.storeg none)) := by
  unfold storesAt at h
  split at h
  · assumption
  · cases h

theorem overrunSource_runs : ∃ p code L img, compile overrunSource = .ok code ∧
    (report overrunSource).accepted = .ok p ∧ p.layout? = some L ∧ load (codeText code) = .ok img ∧
    code.length < wordSize ∧ img.code[12]? = some (.ok (.storeg none)) ∧
    ∃ t, runFrom img.code 20 0 (.initial []) = (.finished, t) ∧ t.output = "7\n" := by
  have hrun : checkSource overrunSource (fun _ code _ img => decide (code.length < wordSize) &&
      img.storesAt 12 && decide ((runFrom img.code 20 0 (.initial [])).1 = .finished ∧
        (runFrom img.code 20 0 (.initial [])).2.output = "7\n")) = true :=
    checkSource_of_checkImage (by decide +kernel)
  obtain ⟨p, code, L, img, hcompile, htree, hlayout, hload, hrun⟩ := checkSource_eq_true.mp hrun
  rw [Bool.and_eq_true, Bool.and_eq_true, decide_eq_true_eq, decide_eq_true_eq] at hrun
  exact ⟨p, code, L, img, hcompile, htree, hlayout, hload, hrun.1.1, Image.storesAt_eq_true hrun.1.2, _,
    Prod.ext hrun.2.1 rfl, hrun.2.2⟩

/-- The assignment beyond the bounds changes the variable after the array, and the run goes on. -/
theorem overrunSource_prints : ∃ code, compile overrunSource = .ok code ∧
    execute (codeText code) [] = .ok "7\n" := by
  obtain ⟨_, code, _, _, hcompile, -, -, hload, -, -, t, hrun, hprints⟩ := overrunSource_runs
  refine ⟨code, hcompile, ?_⟩
  rw [← hprints]
  exact execute_of_run hload (by decide) hrun

theorem element_access_overrunSource : ∃ code p L img, ∃ log : List Region, ∃ g ∈ log, ∃ low high,
    compile overrunSource = .ok code ∧ (report overrunSource).accepted = .ok p ∧ p.layout? = some L ∧
    code.length < wordSize ∧ load (codeText code) = .ok img ∧ (∀ g' ∈ log, g ≠ g' → g.Disjoint g') ∧
    img.code[12]? = some (.ok (.storeg none)) ∧ AccessAt p L img.code 12 (.storeg none) g low high := by
  obtain ⟨p, code, L, img, hcompile, htree, hlayout, hload, hwords, hstore, -⟩ := overrunSource_runs
  obtain ⟨img', log, hload', -, -, hdisjoint, haccess⟩ := element_access hcompile htree hlayout hwords
  cases hload.symm.trans hload'
  obtain ⟨g, hg, low, high, hat⟩ := haccess 12 _ hstore rfl
  exact ⟨code, p, L, img, log, g, hg, low, high, hcompile, htree, hlayout, hwords, hload, hdisjoint g hg,
    hstore, hat⟩

end PascalStack
