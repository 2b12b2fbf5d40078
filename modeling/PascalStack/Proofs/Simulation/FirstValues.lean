import PascalStack.Proofs.Machine.Frames
import PascalStack.Proofs.Simulation.Activations
import PascalStack.Proofs.Soundness.Values

/-!
# First values of variables

The code of a declaration gives the slots of the variables their first values.

* `Region.firstCode`            the code of one variable, `varDecl_code` that of a declaration;
* `Memory.fill`                 a memory with one value in a range of slots;
* `stores_run`, `Region.firstCode_run`, `declared_run`   what this code does to any state;
* `Region.Fresh`                the slots of a variable hold first values of its type;
* `declaration_initialises`     a declaration makes its variables fresh and touches no other slot.

The elements of an array all start as the integer zero.  That is a value of every type of elements but the
texts, `zerosSource_fails`.
-/

namespace PascalStack

open Compile Exec

/-! ## the code -/

/-- The value that the code of a variable puts into its slots. -/
def Shape.first : Shape → Value
  | .scalar t => t.initialValue
  | .array _ _ => .zero

/-- Pushes as many first values as a variable has slots. -/
def Shape.pushFirst (size : Nat) : Shape → Op String
  | .scalar t => t.initial
  | .array _ _ => .pushn size

def Region.firstCode (r : Region) : List Line :=
  emit (r.shape.pushFirst r.size :: (List.range' r.slot r.size).map fun slot => .storeg (some slot))

section
variable {c d : Compiler} {code : List Line}

theorem allocate_declares {name : String} {size slot : Nat} {shape : Shape} {c₁ : Compiler} {u : Unit}
    (ha : allocate size c = .ok slot c₁) (hd : declare name ⟨slot, shape⟩ c₁ = .ok u d) :
    c.DeclaresOnly [⟨c.scopes.current, name, slot, size, shape⟩] d := by
  obtain ⟨rfl, rfl⟩ := allocate_eq_ok.1 ha
  obtain ⟨s, hs, rfl⟩ := declare_eq_ok.1 hd
  exact ⟨.single hs, rfl⟩

theorem declareScalars_code {type : TypeDenoter} {t : DataType} {names : List String}
    (ht : DataType.ofScalar? type = some t) (h : declareScalars t names c = .ok code d) :
    ∃ log, c.DeclaresOnly log d ∧ log.map Region.name = names ∧ (∀ r ∈ log, r.DeclaredBy type names) ∧
      code = log.flatMap Region.firstCode := by
  induction names generalizing c code with
  | nil =>
    rw [declareScalars, pure_eq_ok] at h
    obtain ⟨rfl, rfl⟩ := h
    exact ⟨[], .refl _, rfl, List.forall_mem_nil _, rfl⟩
  | cons name names ih =>
    rw [declareScalars] at h
    simp only [bind_eq_ok, pure_eq_ok] at h
    obtain ⟨slot, c₁, ha, _, c₂, hd, rest, _, hr, rfl, rfl⟩ := h
    obtain ⟨log, hrest, hnames, hlog, rfl⟩ := ih hr
    refine ⟨_, (allocate_declares ha hd).trans hrest, congrArg (name :: ·) hnames, ?_, rfl⟩
    refine List.forall_mem_cons.mpr ⟨⟨List.mem_cons_self .., .inl ⟨t, ht, rfl, rfl⟩⟩, fun r hr => ?_⟩
    exact (hlog r hr).cons

theorem declareArrays_code {low high : Expr} {element : TypeDenoter} {t : DataType} {names : List String}
    (ht : DataType.ofScalar? element = some t) (h : declareArrays low high t names c = .ok code d) :
    ∃ log, c.DeclaresOnly log d ∧ log.map Region.name = names ∧
      (∀ r ∈ log, r.DeclaredBy (.array low high element) names) ∧ code = log.flatMap Region.firstCode := by
  induction names generalizing c code with
  | nil =>
    rw [declareArrays, pure_eq_ok] at h
    obtain ⟨rfl, rfl⟩ := h
    exact ⟨[], .refl _, rfl, List.forall_mem_nil _, rfl⟩
  | cons name names ih =>
    rw [declareArrays] at h
    cases hl : low.constant? with
    | none => simp only [hl, throw_eq_ok] at h
    | some l =>
      cases hh : high.constant? with
      | none => simp only [hl, hh, throw_eq_ok] at h
      | some k =>
        cases hsize : arraySize? l k with
        | none => simp only [hl, hh, hsize, throw_eq_ok] at h
        | some size =>
          simp only [hl, hh, hsize, bind_eq_ok, pure_eq_ok] at h
          obtain ⟨base, c₁, ha, _, c₂, hd, rest, _, hr, rfl, rfl⟩ := h
          obtain ⟨log, hrest, hnames, hlog, rfl⟩ := ih hr
          refine ⟨_, (allocate_declares ha hd).trans hrest, congrArg (name :: ·) hnames, ?_, rfl⟩
          refine List.forall_mem_cons.mpr ⟨⟨List.mem_cons_self .., ?_⟩, fun r hr => (hlog r hr).cons⟩
          exact .inr ⟨low, high, element, l, k, t, rfl, ht, hl, hh, hsize, rfl⟩

/-- The code of a declaration is that of its variables, one after the other. -/
theorem varDecl_code {v : VarDecl} (h : v.compile c = .ok code d) :
    ∃ log, c.DeclaresOnly log d ∧ log.map Region.name = v.names ∧ (∀ r ∈ log, r.DeclaredBy v.type v.names) ∧
      code = log.flatMap Region.firstCode := by
  obtain ⟨names, type⟩ := v
  unfold VarDecl.compile at h
  cases type with
  | array low high element =>
    cases ht : DataType.ofScalar? element with
    | none => simp only [ht, throw_eq_ok] at h
    | some t =>
      simp only [ht] at h
      exact declareArrays_code ht h
  | real => exact declareScalars_code rfl h
  | integer => exact declareScalars_code rfl h
  | boolean => exact declareScalars_code rfl h
  | string => exact declareScalars_code rfl h
  | char => exact declareScalars_code rfl h

end

/-! ## its effect -/

/-- A memory with one value in a range of slots. -/
def Memory.fill (m : Memory) (base size : Nat) (v : Value) : Memory :=
  { m with slots := fun n => if base ≤ n ∧ n < base + size then v else m.slots n }

theorem Memory.fill_zero (m : Memory) (base : Nat) (v : Value) : m.fill base 0 v = m := by
  obtain ⟨slots, input, output⟩ := m
  unfold Memory.fill
  congr 1
  funext n
  exact if_neg fun h => by omega

theorem Memory.fill_succ (m : Memory) (base size : Nat) (v : Value) :
    (m.set base v).fill (base + 1) size v = m.fill base (size + 1) v := by
  unfold Memory.fill Memory.set
  congr 1
  funext n
  dsimp only
  by_cases hbase : n = base
  · subst hbase
    rw [if_neg (by omega), if_pos rfl, if_pos (by omega)]
  · by_cases hn : base + 1 ≤ n ∧ n < base + 1 + size
    · rw [if_pos hn, if_pos (by omega)]
    · rw [if_neg hn, if_neg hbase, if_neg (by omega)]

def Memory.fillAll (m : Memory) : List Region → Memory
  | [] => m
  | r :: log => (m.fill r.slot r.size r.shape.first).fillAll log

theorem Memory.fillAll_streams (m : Memory) (log : List Region) :
    (m.fillAll log).input = m.input ∧ (m.fillAll log).output = m.output := by
  induction log generalizing m with
  | nil => exact ⟨rfl, rfl⟩
  | cons r log ih => exact ih (m.fill r.slot r.size r.shape.first)

theorem Memory.fillAll_outside {m : Memory} {log : List Region} {n : Nat}
    (h : ∀ r ∈ log, n < r.slot ∨ r.slot + r.size ≤ n) : (m.fillAll log).slots n = m.slots n := by
  induction log generalizing m with
  | nil => rfl
  | cons r log ih =>
    rw [Memory.fillAll, ih fun r' hr' => h r' (List.mem_cons_of_mem _ hr')]
    have hout := h r (List.mem_cons_self ..)
    exact if_neg fun hn => by omega

theorem Memory.fillAll_inside {m : Memory} {log : List Region} {start i : Nat} {r : Region}
    (h : Consecutive start log) (hr : r ∈ log) (hi : i < r.size) :
    (m.fillAll log).slots (r.slot + i) = r.shape.first := by
  induction log generalizing m start with
  | nil => cases hr
  | cons g log ih =>
    rw [Memory.fillAll]
    rcases List.mem_cons.mp hr with rfl | hr
    · have hafter := h.2.le
      rw [Memory.fillAll_outside fun g hg => .inl (Nat.lt_of_lt_of_le (by have := h.1; omega) (hafter g hg))]
      exact if_pos (by omega)
    · exact ih h.2 hr

section
variable {code : Code} {targets : String → Option Nat} {p q : Nat} {v : Value} {rest : List Value}

/-- A value is stored in each slot of a range. -/
theorem stores_run {size base : Nat} {s : State} (hfit : base + size ≤ maxGlobals)
    (hp : Placed code targets p (emit ((List.range' base size).map fun slot => .storeg (some slot))) q)
    (hs : s.stack = List.replicate size v ++ rest) :
    ∃ t, Reaches code p s q t ∧ t.stack = rest ∧ t.calls = s.calls ∧ t.memory = s.memory.fill base size v := by
  induction size generalizing base p s with
  | zero =>
    obtain rfl : p = q := hp
    exact ⟨s, .refl, hs, rfl, (Memory.fill_zero ..).symm⟩
  | succ size ih =>
    rw [List.range'_succ] at hp
    obtain ⟨m, hstore, hrest⟩ := hp.uncons
    obtain ⟨hop, rfl⟩ := hstore.single
    have hbase : base < maxGlobals := by omega
    obtain ⟨o, ho, hcode⟩ := hop (decide_eq_true (Nat.lt_trans hbase (by decide)))
    cases ho
    obtain ⟨u, hstep, hstack, hcalls, hmemory⟩ :=
      (does_storeg base).step hcode hs (Eval.storeSlot_of_lt hbase)
    obtain ⟨t, hrun, htstack, htcalls, htmemory⟩ := ih (by omega) hrest hstack
    refine ⟨t, .cons hstep hrun, htstack, htcalls.trans hcalls, ?_⟩
    rw [htmemory, hmemory, Memory.fill_succ]

/-- The first values are pushed. -/
theorem Region.pushFirst_step {r : Region} {s : State} (hsize : ∀ t, r.shape = .scalar t → r.size = 1)
    (hfit : r.size ≤ maxGlobals) (hp : Placed code targets p (emit [r.shape.pushFirst r.size]) q) :
    ∃ t, step code p s = (.suspended q, t) ∧ t.stack = List.replicate r.size r.shape.first ++ s.stack ∧
      t.calls = s.calls ∧ t.memory = s.memory := by
  obtain ⟨hop, rfl⟩ := hp.single
  cases hshape : r.shape with
  | array low t =>
    rw [hshape] at hop
    obtain ⟨o, ho, hcode⟩ := hop (decide_eq_true hfit)
    cases ho
    exact (does_pushn r.size).step hcode (List.nil_append s.stack).symm rfl
  | scalar t =>
    rw [hshape] at hop
    rw [hsize t hshape]
    cases t with
    | _ =>
      obtain ⟨o, ho, hcode⟩ := hop rfl
      cases ho
      exact (does_push rfl).step hcode (List.nil_append s.stack).symm rfl

theorem Region.firstCode_run {r : Region} {s : State} (hsize : ∀ t, r.shape = .scalar t → r.size = 1)
    (hfit : r.slot + r.size ≤ maxGlobals) (hp : Placed code targets p r.firstCode q) :
    ∃ t, Reaches code p s q t ∧ t.stack = s.stack ∧ t.calls = s.calls ∧
      t.memory = s.memory.fill r.slot r.size r.shape.first := by
  obtain ⟨m, hpush, hstores⟩ := hp.uncons
  obtain ⟨u, hstep, hstack, hcalls, hmemory⟩ := r.pushFirst_step hsize (by omega) hpush
  obtain ⟨t, hrun, htstack, htcalls, htmemory⟩ := stores_run hfit hstores hstack
  exact ⟨t, .cons hstep hrun, htstack, htcalls.trans hcalls, hmemory ▸ htmemory⟩

/-- Variables get their first values one after the other. -/
theorem declared_run {log : List Region} {s : State}
    (hlog : ∀ r ∈ log, r.slot + r.size ≤ maxGlobals ∧ ∀ t, r.shape = .scalar t → r.size = 1)
    (hp : Placed code targets p (log.flatMap Region.firstCode) q) :
    ∃ t, Reaches code p s q t ∧ t.stack = s.stack ∧ t.calls = s.calls ∧ t.memory = s.memory.fillAll log := by
  induction log generalizing p s with
  | nil =>
    obtain rfl : p = q := hp
    exact ⟨s, .refl, rfl, rfl, rfl⟩
  | cons r log ih =>
    rw [List.flatMap_cons] at hp
    obtain ⟨m, hfirst, hrest⟩ := placed_append.mp hp
    obtain ⟨hfit, hsize⟩ := hlog r (List.mem_cons_self ..)
    obtain ⟨u, hru, hustack, hucalls, humemory⟩ := r.firstCode_run (s := s) hsize hfit hfirst
    obtain ⟨t, hrt, htstack, htcalls, htmemory⟩ :=
      ih (s := u) (fun r' hr' => hlog r' (List.mem_cons_of_mem _ hr')) hrest
    refine ⟨t, hru.trans hrt, htstack.trans hustack, htcalls.trans hucalls, ?_⟩
    rw [htmemory, humemory, Memory.fillAll]

end

/-! ## first values and types -/

/-- An instruction can take a value of the type off the stack. -/
def DataType.TakenFrom (u : State) : DataType → Prop
  | .integer | .boolean | .char => ∀ instruction, ∃ n w, popInteger instruction u = .ok n w
  | .real => ∀ instruction, ∃ x w, popReal instruction u = .ok x w
  | .string => ∀ instruction, ∃ text w, popString instruction u = .ok text w
  | .array => False

theorem DataType.Holds.takenFrom {t : DataType} {v : Value} {u : State} {rest : List Value} (h : t.Holds v)
    (hu : u.stack = v :: rest) : t.TakenFrom u := by
  cases h with
  | integer n | boolean n => exact fun _ => ⟨n, _, popInteger_of_cons hu⟩
  | char c => exact fun _ => ⟨_, _, popInteger_of_cons hu⟩
  | real x => exact fun _ => ⟨x, _, popReal_of_cons hu⟩
  | whole n => exact fun _ => ⟨_, _, popReal_of_cons hu⟩
  | string text => exact fun _ => ⟨text, _, popString_of_cons hu⟩

/-- The slots of a variable hold first values of its type.  The elements of an array start as the integer
zero, so nothing is said of texts in an array. -/
structure Region.Fresh (r : Region) (m : Memory) : Prop where
  scalar : ∀ t, r.shape = .scalar t → ∀ i < r.size, m.slots (r.slot + i) = t.initialValue
  element : ∀ low t, r.shape = .array low t → t ≠ .string → ∀ i < r.size, m.slots (r.slot + i) = .integer 0
  usable : ∀ t, (r.shape = .scalar t ∨ (∃ low, r.shape = .array low t) ∧ t ≠ .string) → ∀ i < r.size,
    t.Holds (m.slots (r.slot + i)) ∧
      ∀ (u : State) (rest : List Value), u.stack = m.slots (r.slot + i) :: rest → t.TakenFrom u

theorem DataType.holds_initialValue {t : DataType} (h : t ≠ .array) : t.Holds t.initialValue := by
  cases t with
  | real => exact .real 0
  | string => exact .string ""
  | array => exact absurd rfl h
  | integer | boolean | char => exact DataType.holds_zero nofun nofun

/-- A variable whose slots are filled as its code fills them is fresh. -/
theorem Region.DeclaredBy.fresh {type : TypeDenoter} {names : List String} {r : Region} {m : Memory}
    (h : r.DeclaredBy type names) (hm : ∀ i < r.size, m.slots (r.slot + i) = r.shape.first) : r.Fresh m := by
  have hscalar : ∀ t, r.shape = .scalar t → t ≠ .array := by
    intro t ht
    rcases h.shape with ⟨t', ht', -, hshape⟩ | ⟨_, _, _, _, _, _, -, -, -, -, -, hshape⟩
    · cases ht.symm.trans hshape
      exact DataType.ofScalar?_ne_array ht'
    · cases ht.symm.trans hshape
  have hholds : ∀ t, (r.shape = .scalar t ∨ (∃ low, r.shape = .array low t) ∧ t ≠ .string) →
      t.Holds r.shape.first := by
    rintro t (ht | ⟨⟨low, ht⟩, hstring⟩)
    · rw [ht]
      exact DataType.holds_initialValue (hscalar t ht)
    · rw [ht]
      refine DataType.holds_zero hstring ?_
      rcases h.shape with ⟨_, -, -, hshape⟩ | ⟨_, _, _, _, _, t', -, ht', -, -, -, hshape⟩
      · cases ht.symm.trans hshape
      · cases ht.symm.trans hshape
        exact DataType.ofScalar?_ne_array ht'
  refine ⟨fun t ht i hi => ?_, fun low t ht _ i hi => ?_, fun t ht i hi => ?_⟩
  · rw [hm i hi, ht]
    rfl
  · rw [hm i hi, ht]
    rfl
  · rw [hm i hi]
    exact ⟨hholds t ht, fun u rest hu => (hholds t ht).takenFrom hu⟩

/-- Slots that exist are counted without a carry. -/
theorem Scopes.Declares.consecutive {s t : Scopes} {log : List Region} (h : Declares s log t)
    (hfit : ∀ r ∈ log, r.slot + r.size ≤ maxGlobals) : Consecutive s.nextSlot log := by
  induction h with
  | refl => trivial
  | @step s t u log name size shape hd _ ih =>
    have hsize : s.nextSlot + size ≤ maxGlobals := hfit _ (List.mem_cons_self ..)
    have hword : maxGlobals < wordSize := by decide
    have hnext : t.nextSlot = s.nextSlot + size :=
      (declare_nextSlot hd).trans (Nat.mod_eq_of_lt (Nat.lt_of_le_of_lt hsize hword))
    refine ⟨rfl, ?_⟩
    have hrest := ih fun r hr => hfit r (List.mem_cons_of_mem _ hr)
    rwa [hnext] at hrest

/-- **First values.**  A declaration reserves a region of slots for each of its names.  If all of them exist,
then wherever its code is placed, and in whatever state it is run, the run comes to the end of the code, leaves
both stacks, the input and the output as they were, makes all the variables fresh and changes no other
slot. -/
theorem declaration_initialises {v : VarDecl} {c d : Compiler} {lines : List Line}
    (h : v.compile c = .ok lines d) :
    ∃ log : List Region, log.map Region.name = v.names ∧ (∀ r ∈ log, r.DeclaredBy v.type v.names) ∧
      (c.scopes.Entered → ∀ r ∈ log, d.scopes.resolve? r.name = some ⟨r.slot, r.shape⟩) ∧
      ((∀ r ∈ log, r.slot + r.size ≤ maxGlobals) →
        ∀ code targets p q, Placed code targets p lines q → ∀ s : State, ∃ t : State,
          Reaches code p s q t ∧ t.stack = s.stack ∧ t.calls = s.calls ∧ t.input = s.input ∧
          t.output = s.output ∧ (∀ r ∈ log, r.Fresh t.memory) ∧
          ∀ n, (∀ r ∈ log, n < r.slot ∨ r.slot + r.size ≤ n) → t.memory.slots n = s.memory.slots n) := by
  obtain ⟨log, hdeclares, hnames, hdeclared, rfl⟩ := varDecl_code h
  refine ⟨log, hnames, hdeclared, fun he r hr => ?_, fun hfit code targets p q hplaced s => ?_⟩
  · exact Scopes.resolve?_of_currentTable (hdeclares.declares.found he r hr)
  have hscalar : ∀ r ∈ log, ∀ t, r.shape = .scalar t → r.size = 1 := by
    intro r hr t ht
    rcases (hdeclared r hr).shape with ⟨_, -, hsize, -⟩ | ⟨_, _, _, _, _, _, -, -, -, -, -, hshape⟩
    · exact hsize
    · cases ht.symm.trans hshape
  obtain ⟨t, hrun, hstack, hcalls, hmemory⟩ :=
    declared_run (s := s) (fun r hr => ⟨hfit r hr, hscalar r hr⟩) hplaced
  have hconsecutive := hdeclares.declares.consecutive hfit
  obtain ⟨hinput, houtput⟩ := s.memory.fillAll_streams log
  refine ⟨t, hrun, hstack, hcalls, ?_, ?_, fun r hr => ?_, fun n hn => ?_⟩
  · exact (congrArg Memory.input hmemory).trans hinput
  · exact (congrArg Memory.output hmemory).trans houtput
  · refine (hdeclared r hr).fresh fun i hi => ?_
    rw [hmemory]
    exact Memory.fillAll_inside hconsecutive hr hi
  · rw [hmemory]
    exact Memory.fillAll_outside hn

/-- The declaration `a, b: array [1..2] of real`. -/
def pairsDecl : VarDecl := ⟨["a", "b"], .array (.constant (.integer 1)) (.constant (.integer 2)) .real⟩

def pairsLines : List Line :=
  emit [.pushn 2, .storeg (some 0), .storeg (some 1), .pushn 2, .storeg (some 2), .storeg (some 3)]

def pairsCode : Code :=
  #[.ok (.pushn 2), .ok (.storeg (some 0)), .ok (.storeg (some 1)), .ok (.pushn 2), .ok (.storeg (some 2)),
    .ok (.storeg (some 3))]

/-- Of five slots that hold other values, four get first values, and the stack stays as it is. -/
theorem declaration_initialises_pairs : ∃ d, pairsDecl.compile .initial = .ok pairsLines d ∧
    Placed pairsCode (fun _ => none) 0 pairsLines 6 ∧
    ∃ t, Reaches pairsCode 0 ⟨[.string "x"], #[.real 5, .real 6, .real 7, .real 8, .real 9], [], [], ""⟩ 6 t ∧
      t.stack = [.string "x"] ∧ (∀ n < 4, t.memory.slots n = .integer 0) ∧ t.memory.slots 4 = .real 9 := by
  have hcompile : ∃ d, pairsDecl.compile .initial = .ok pairsLines d ∧
      d.scopes.resolve? "a" = some ⟨0, .array 1 .real⟩ ∧ d.scopes.resolve? "b" = some ⟨2, .array 1 .real⟩ :=
    ⟨_, rfl, rfl, rfl⟩
  obtain ⟨d, hcompile, ha, hb⟩ := hcompile
  have hplaced : Placed pairsCode (fun _ => none) 0 pairsLines 6 :=
    ⟨fun _ => ⟨_, rfl, rfl⟩, fun _ => ⟨_, rfl, rfl⟩, fun _ => ⟨_, rfl, rfl⟩, fun _ => ⟨_, rfl, rfl⟩,
      fun _ => ⟨_, rfl, rfl⟩, fun _ => ⟨_, rfl, rfl⟩, rfl⟩
  obtain ⟨log, hnames, hdeclared, hresolve, hruns⟩ := declaration_initialises hcompile
  have hentered : Compiler.initial.scopes.Entered := nofun
  have hsize : ∀ r ∈ log, r.size = 2 := by
    intro r hr
    rcases (hdeclared r hr).shape with ⟨t, ht, -, -⟩ | ⟨_, _, _, l, h, t, htype, -, hl, hh, hsize, -⟩
    · cases ht
    · cases htype
      cases hl
      cases hh
      exact (Option.some.inj hsize).symm
  have hregion : ∀ name slot, d.scopes.resolve? name = some ⟨slot, .array 1 .real⟩ → ∀ r ∈ log,
      r.name = name → r.slot = slot ∧ r.shape = .array 1 .real := by
    rintro name slot hfound r hr rfl
    obtain ⟨hslot, hshape⟩ := Variable.mk.inj (Option.some.inj ((hresolve hentered r hr).symm.trans hfound))
    exact ⟨hslot, hshape⟩
  have hplace : ∀ r ∈ log, r.slot = 0 ∨ r.slot = 2 := by
    intro r hr
    have hname : r.name ∈ ["a", "b"] := (hdeclared r hr).name
    rcases List.mem_cons.mp hname with hname | hname
    · exact .inl (hregion _ _ ha r hr hname).1
    · exact .inr (hregion _ _ hb r hr (List.mem_singleton.mp hname)).1
  have hfit : ∀ r ∈ log, r.slot + r.size ≤ 4 := by
    intro r hr
    have := hplace r hr
    have := hsize r hr
    omega
  obtain ⟨t, hrun, hstack, -, -, -, hfresh, hother⟩ :=
    hruns (fun r hr => Nat.le_trans (hfit r hr) (by decide)) pairsCode (fun _ => none) 0 6 hplaced
      ⟨[.string "x"], #[.real 5, .real 6, .real 7, .real 8, .real 9], [], [], ""⟩
  have hzero : ∀ name slot, name ∈ pairsDecl.names → d.scopes.resolve? name = some ⟨slot, .array 1 .real⟩ →
      ∀ i < 2, t.memory.slots (slot + i) = .integer 0 := by
    intro name slot hname hfound i hi
    rw [← hnames] at hname
    obtain ⟨r, hr, rfl⟩ := List.mem_map.mp hname
    obtain ⟨rfl, hshape⟩ := hregion _ _ hfound r hr rfl
    exact (hfresh r hr).element 1 .real hshape nofun i (by rw [hsize r hr]; exact hi)
  refine ⟨d, hcompile, hplaced, t, hrun, hstack, fun n hn => ?_, ?_⟩
  · by_cases hlow : n < 2
    · have hslot := hzero "a" 0 (by decide) ha n hlow
      rwa [Nat.zero_add] at hslot
    · have hslot := hzero "b" 2 (by decide) hb (n - 2) (by omega)
      rwa [Nat.add_sub_cancel' (by omega)] at hslot
  · exact hother 4 fun r hr => .inr (hfit r hr)

/-- An array of reals, and an array of texts whose element is written before it is assigned. -/
def zerosSource : String :=
  "program p; var a: array[1..1] of real; b: array[1..1] of string; begin writeln(b[1]) end."

/-- The elements of both arrays are the integer zero; it is no real number, and the text cannot be
written. -/
theorem zerosSource_fails : ∃ code img t, compile zerosSource = .ok code ∧ load (codeText code) = .ok img ∧
    run img.code (some usualLimit) (.initial []) =
      (some (.typeError "writes" (.unexpected .string (.integer 0))), t) ∧
    t.memory.slots 0 = .integer 0 ∧ t.memory.slots 1 = .integer 0 := by
  have hrun : checkSource zerosSource (fun _ _ _ img =>
      decide ((run img.code (some usualLimit) (.initial [])).1 =
          some (.typeError "writes" (.unexpected .string (.integer 0)))) &&
        decide ((run img.code (some usualLimit) (.initial [])).2.memory.slots 0 = .integer 0) &&
        decide ((run img.code (some usualLimit) (.initial [])).2.memory.slots 1 = .integer 0)) = true :=
    checkSource_of_checkImage (by decide +kernel)
  obtain ⟨_, code, _, img, hcompile, -, -, hload, hrun⟩ := checkSource_eq_true.mp hrun
  rw [Bool.and_eq_true, Bool.and_eq_true, decide_eq_true_eq, decide_eq_true_eq, decide_eq_true_eq] at hrun
  exact ⟨code, img, _, hcompile, hload, Prod.ext hrun.1.1 rfl, hrun.1.2, hrun.2⟩

end PascalStack
