import PascalStack.Proofs.Simulation.Elements
import PascalStack.Proofs.Simulation.FirstValues

/-!
# Bounds of arrays and addresses of their elements

Bounds are checked over the integers, and addresses are computed in machine integers that wrap around.

* `AllowedBounds`, `checkedSize?`   the bounds that a declaration may have, `arraySize?_eq_checkedSize?`;
* `declareArrays_eq_error`   with such bounds a declaration fails only at a name that is taken;
* `Variable.reach_injective`, `Variable.reach_mem_iff`   addresses, for every index;
* `Region.ElementAddresses`   the address code of an array, `Region.elementAddresses`;
* `array_addressing`          which declarations are refused, and what the addresses of the others are.
-/

namespace PascalStack

open Compile

/-! ## bounds -/

/-- There are between one and 65536 elements. -/
def AllowedBounds (low high : Int64) : Prop :=
  1 ≤ high.toInt - low.toInt + 1 ∧ high.toInt - low.toInt + 1 ≤ 65536

instance (low high : Int64) : Decidable (AllowedBounds low high) := inferInstanceAs (Decidable (_ ∧ _))

/-- The number of elements, computed in machine integers; a step that leaves their range has no result. -/
def checkedSize? (low high : Int64) : Option Nat := do
  let span ← machineInteger? (high.toInt - low.toInt)
  let count ← machineInteger? (span.toInt + 1)
  if 1 ≤ count.toInt ∧ count.toInt ≤ maxArraySize then some count.toInt.toNat else none

section
variable {low high : Int64} {size : Nat}

theorem arraySize?_of_allowed (h : AllowedBounds low high) :
    arraySize? low high = some (high.toInt - low.toInt + 1).toNat :=
  if_pos h

theorem arraySize?_of_not_allowed (h : ¬AllowedBounds low high) : arraySize? low high = none := if_neg h

theorem arraySize?_toInt (h : arraySize? low high = some size) : (size : Int) = high.toInt - low.toInt + 1 := by
  by_cases hbounds : AllowedBounds low high
  · cases (arraySize?_of_allowed hbounds).symm.trans h
    have := hbounds.1
    omega
  · cases (arraySize?_of_not_allowed hbounds).symm.trans h

theorem machineInteger?_of_range {n : Int} (h : minInteger ≤ n) (h' : n ≤ maxInteger) :
    ∃ m, machineInteger? n = some m ∧ m.toInt = n := by
  refine ⟨_, if_pos ⟨h, h'⟩, Int64.toInt_ofInt_of_le h ?_⟩
  exact Int.lt_of_le_of_lt h' (by decide)

theorem machineInteger?_of_lt {n : Int} (h : maxInteger < n) : machineInteger? n = none :=
  if_neg fun hn => Int.not_le.mpr h hn.2

theorem machineInteger?_of_gt {n : Int} (h : n < minInteger) : machineInteger? n = none :=
  if_neg fun hn => Int.not_le.mpr h hn.1

/-- Bounds whose distance is out of range are not allowed, so it makes no difference that the steps are
checked. -/
theorem arraySize?_eq_checkedSize? (low high : Int64) : arraySize? low high = checkedSize? low high := by
  have hmin : minInteger = -9223372036854775808 := rfl
  have hmax : maxInteger = 9223372036854775807 := rfl
  unfold checkedSize?
  by_cases hspan : high.toInt - low.toInt < minInteger
  · rw [machineInteger?_of_gt hspan, arraySize?_of_not_allowed fun h => by have := h.1; omega]
    rfl
  by_cases hcount : maxInteger ≤ high.toInt - low.toInt
  · rw [arraySize?_of_not_allowed fun h => by have := h.2; omega]
    by_cases hspan' : maxInteger < high.toInt - low.toInt
    · rw [machineInteger?_of_lt hspan']
      rfl
    · obtain ⟨span, hsome, heq⟩ :=
        machineInteger?_of_range (Int.not_lt.mp hspan) (Int.not_lt.mp hspan')
      rw [hsome, Option.bind_eq_bind, Option.bind_some, machineInteger?_of_lt (by omega)]
      rfl
  · obtain ⟨span, hsome, heq⟩ :=
      machineInteger?_of_range (Int.not_lt.mp hspan) (Int.le_of_lt (Int.not_le.mp hcount))
    obtain ⟨count, hsome', heq'⟩ :=
      machineInteger?_of_range (n := span.toInt + 1) (by omega) (by omega)
    rw [hsome, Option.bind_eq_bind, Option.bind_some, hsome', Option.bind_some, heq', heq]
    rfl

end

/-! ## declarations -/

namespace Compile
variable {α β : Type} {c d : Compiler} {e : SemanticError}

theorem bind_eq_error {x : Compile α} {f : α → Compile β} : (x >>= f) c = .error e d ↔
    x c = .error e d ∨ ∃ a c₁, x c = .ok a c₁ ∧ f a c₁ = .error e d := by
  show EStateM.bind x f c = _ ↔ _
  unfold EStateM.bind
  cases x c with
  | ok a c₁ =>
    constructor
    · intro hf
      exact .inr ⟨a, c₁, rfl, hf⟩
    · rintro (h | ⟨a', c', h, hf⟩)
      · cases h
      · cases h
        exact hf
  | error e' c₁ =>
    constructor
    · intro h
      cases h
      exact .inl rfl
    · rintro (h | ⟨_, _, h, -⟩)
      · cases h
        rfl
      · cases h

theorem pure_eq_error {a : α} : (pure a : Compile α) c = .error e d ↔ False := ⟨nofun, nofun⟩

theorem throw_eq_error {e' : SemanticError} : (throw e' : Compile α) c = .error e d ↔ e' = e ∧ c = d := by
  show EStateM.Result.error e' c = _ ↔ _
  rw [EStateM.Result.error.injEq]

theorem allocate_eq_error {size : Nat} : allocate size c = .error e d ↔ False := ⟨nofun, nofun⟩

theorem declare_eq_error {name : String} {v : Variable} :
    declare name v c = .error e d ↔ c.scopes.declare name v = .error e ∧ c = d := by
  show EStateM.bind (check (c.scopes.declare name v)) setScopes c = _ ↔ _
  unfold EStateM.bind check
  cases c.scopes.declare name v with
  | ok s => exact ⟨nofun, nofun⟩
  | error e' =>
    rw [Except.error.injEq]
    exact throw_eq_error

end Compile

/-- A name is taken, by a function or in the current scope. -/
def Scopes.Taken (s : Scopes) (name : String) : Prop :=
  (s.function? name).isSome = true ∨ (s.currentTable.find? name).isSome = true

/-- A declaration fails if and only if its name is taken. -/
theorem Scopes.declare_eq_error {s : Scopes} {name : String} {v : Variable} {e : SemanticError} :
    s.declare name v = .error e ↔ s.Taken name ∧ e = .duplicate name := by
  unfold Scopes.declare
  have htaken : (s.functions.contains name || s.currentTable.contains name) = true ↔ s.Taken name := by
    rw [Bool.or_eq_true]
    rfl
  split
  · rename_i h
    rw [Except.error.injEq]
    exact ⟨fun he => ⟨htaken.mp h, he.symm⟩, fun he => he.2.symm⟩
  · rename_i h
    refine ⟨fun he => ?_, fun he => absurd (htaken.mpr he.1) h⟩
    split at he <;> cases he

section
variable {lowExpr highExpr : Expr} {element : DataType} {low high : Int64} {c d : Compiler} {e : SemanticError}

theorem declareArrays_refused (hlow : lowExpr.constant? = some low) (hhigh : highExpr.constant? = some high)
    (hbounds : ¬AllowedBounds low high) (name : String) (names : List String) :
    declareArrays lowExpr highExpr element (name :: names) c = .error (.invalidBounds name low high) c := by
  rw [declareArrays, hlow, hhigh]
  simp only [arraySize?_of_not_allowed hbounds]
  rfl

/-- With bounds that are allowed, only a name can be wrong. -/
theorem declareArrays_eq_error {names : List String} (hlow : lowExpr.constant? = some low)
    (hhigh : highExpr.constant? = some high) (hbounds : AllowedBounds low high)
    (h : declareArrays lowExpr highExpr element names c = .error e d) :
    ∃ name ∈ names, e = .duplicate name ∧ d.scopes.Taken name := by
  induction names generalizing c with
  | nil =>
    rw [declareArrays, pure_eq_error] at h
    exact h.elim
  | cons name names ih =>
    rw [declareArrays, hlow, hhigh] at h
    simp only [arraySize?_of_allowed hbounds, bind_eq_error, allocate_eq_error, declare_eq_error, pure_eq_error,
      false_or, and_false, exists_false, or_false] at h
    obtain ⟨base, c₁, -, ⟨hdeclare, rfl⟩ | ⟨_, c₂, -, hrest⟩⟩ := h
    · obtain ⟨htaken, rfl⟩ := Scopes.declare_eq_error.mp hdeclare
      exact ⟨name, List.mem_cons_self .., rfl, htaken⟩
    · obtain ⟨other, hmem, he⟩ := ih hrest
      exact ⟨other, List.mem_cons_of_mem _ hmem, he⟩

end

/-! ## addresses -/

namespace Variable

/-- Different indices give different addresses, whether they are within the bounds or not. -/
theorem reach_injective (v : Variable) {i j : Int64} (h : v.reach i = v.reach j) : i = j := by
  obtain ⟨k, hk⟩ := v.reach_add_mul i
  obtain ⟨l, hl⟩ := v.reach_add_mul j
  rw [h] at hk
  have hi := i.toInt_lt
  have hi' := i.le_toInt
  have hj := j.toInt_lt
  have hj' := j.le_toInt
  exact Int64.toInt_inj.mp (by omega)

variable {v : Variable} {high : Int64} {size : Nat}

theorem toInt_reach {i : Int64} (hlow : v.low ≤ i) (hhigh : i ≤ high)
    (hsize : (size : Int) = high.toInt - v.low.toInt + 1)
    (hfit : v.slot + size ≤ maxGlobals) : (v.reach i).toInt = v.slot + (i.toInt - v.low.toInt) := by
  rw [Int64.le_iff_toInt_le] at hlow hhigh
  obtain ⟨k, hk⟩ := v.reach_add_mul i
  have hmax : maxGlobals = 1048576 := rfl
  have hlt := (v.reach i).toInt_lt
  have hle := (v.reach i).le_toInt
  omega

/-- The distance of an address from the array and that of an index from its lower bound differ by a multiple
of the number of words, and both are smaller than that number. -/
theorem reach_mem_iff (i : Int64) (hsize : (size : Int) = high.toInt - v.low.toInt + 1)
    (hfit : v.slot + size ≤ maxGlobals) :
    ((v.slot : Int) ≤ (v.reach i).toInt ∧ (v.reach i).toInt < v.slot + size) ↔ v.low ≤ i ∧ i ≤ high := by
  rw [Int64.le_iff_toInt_le, Int64.le_iff_toInt_le]
  obtain ⟨k, hk⟩ := v.reach_add_mul i
  have hmax : maxGlobals = 1048576 := rfl
  have hi := i.toInt_lt
  have hi' := i.le_toInt
  have hh := high.toInt_lt
  have hl := v.low.le_toInt
  have hlt := (v.reach i).toInt_lt
  have hle := (v.reach i).le_toInt
  omega

end Variable

section
variable {code : Code} {targets : String → Option Nat} {p q : Nat}

theorem Placed.addressAt {v : Variable} (h : Placed code targets p (addressCode v) q) :
    AddressAt code p v ∧ q = p + 4 := by
  obtain ⟨_, hlow, h⟩ := h.uncons
  obtain ⟨_, hsub, h⟩ := h.uncons
  obtain ⟨_, hbase, hadd⟩ := h.uncons
  obtain ⟨low, rfl⟩ := hlow.instruction rfl rfl
  obtain ⟨minus, rfl⟩ := hsub.instruction rfl rfl
  obtain ⟨base, rfl⟩ := hbase.instruction rfl rfl
  obtain ⟨plus, rfl⟩ := hadd.instruction rfl rfl
  exact ⟨⟨low, minus, base, plus⟩, rfl⟩

end

/-- The addresses of the elements of an array with the bounds `low` and `high`.

* `leaves`   four instructions after its index, the code of an address leaves it on the stack;
* `own`      it is one of the array if and only if the index is within the bounds;
* `within`   and then it is counted from the lower bound;
* `apart`    no two indices have the same address. -/
structure Region.ElementAddresses (r : Region) (low high : Int64) : Prop where
  leaves : ∀ {i : Expr} {lines : List Line} {c d : Compiler},
    addressOf r.asVariable i i.compile c = .ok lines d → ∃ index, i.compile c = .ok index d ∧
      ∀ {code targets p q}, Placed code targets p lines q → ∃ m, Placed code targets p index m ∧
        ∀ {s n rest}, s.stack = .integer n :: rest → ∀ fuel,
          runFrom code (fuel + 4) m s =
            runFrom code fuel q { s with stack := .integer (r.asVariable.reach n) :: rest }
  own : ∀ n, ((r.slot : Int) ≤ (r.asVariable.reach n).toInt ∧ (r.asVariable.reach n).toInt < r.slot + r.size) ↔
    low ≤ n ∧ n ≤ high
  within : ∀ n, low ≤ n → n ≤ high → (r.asVariable.reach n).toInt = r.slot + (n.toInt - low.toInt)
  apart : ∀ m n, r.asVariable.reach m = r.asVariable.reach n → m = n

theorem Region.elementAddresses {r : Region} {low high : Int64} {t : DataType} (hshape : r.shape = .array low t)
    (hsize : (r.size : Int) = high.toInt - low.toInt + 1) (hfit : r.slot + r.size ≤ maxGlobals) :
    r.ElementAddresses low high := by
  have hlow : r.asVariable.low = low := by rw [Region.asVariable, Variable.low, hshape]
  rw [← hlow] at hsize ⊢
  refine ⟨fun h => ?_, fun n => Variable.reach_mem_iff n hsize hfit,
    fun n h h' => Variable.toInt_reach h h' hsize hfit, fun m n => r.asVariable.reach_injective⟩
  obtain ⟨-, index, hindex, rfl⟩ := addressOf_eq_ok.mp h
  refine ⟨index, hindex, fun hplaced => ?_⟩
  obtain ⟨m, hm, haddress⟩ := placed_append.mp hplaced
  obtain ⟨hat, rfl⟩ := haddress.addressAt
  exact ⟨m, hm, fun hs fuel => hat.computes hs fuel⟩

/-- **Bounds and addresses.**  A declaration of arrays is refused for its bounds if and only if there would be
no element or too many of them, whether or not their distance is a machine integer.  The slots of the arrays
are reached with the indices within the bounds and with no others, although the computation of an address
wraps around. -/
theorem array_addressing {v : VarDecl} {name : String} {names : List String} {lowExpr highExpr : Expr}
    {element : TypeDenoter} {t : DataType} {low high : Int64}
    (hv : v = ⟨name :: names, .array lowExpr highExpr element⟩) (ht : DataType.ofScalar? element = some t)
    (hlow : lowExpr.constant? = some low) (hhigh : highExpr.constant? = some high) (c : Compiler) :
    arraySize? low high = checkedSize? low high ∧
    ((∃ n l h d, v.compile c = .error (.invalidBounds n l h) d) ↔ ¬AllowedBounds low high) ∧
    (¬AllowedBounds low high → v.compile c = .error (.invalidBounds name low high) c) ∧
    (AllowedBounds low high → ∀ e d, v.compile c = .error e d →
      ∃ n ∈ v.names, e = .duplicate n ∧ d.scopes.Taken n) ∧
    ∀ lines d, v.compile c = .ok lines d → AllowedBounds low high ∧
      ∃ log : List Region, log.map Region.name = v.names ∧
        ∀ r ∈ log, (r.size : Int) = high.toInt - low.toInt + 1 ∧
          (c.scopes.Entered → d.scopes.resolve? r.name = some r.asVariable) ∧
          (r.slot + r.size ≤ maxGlobals → r.ElementAddresses low high) := by
  subst hv
  have hcompile : VarDecl.compile ⟨name :: names, .array lowExpr highExpr element⟩ c =
      declareArrays lowExpr highExpr t (name :: names) c := by
    unfold VarDecl.compile
    simp only [ht]
  have hrefused : ¬AllowedBounds low high →
      VarDecl.compile ⟨name :: names, .array lowExpr highExpr element⟩ c =
        .error (.invalidBounds name low high) c := fun hbounds =>
    hcompile.trans (declareArrays_refused hlow hhigh hbounds name names)
  have htaken : AllowedBounds low high → ∀ e d,
      VarDecl.compile ⟨name :: names, .array lowExpr highExpr element⟩ c = .error e d →
        ∃ n ∈ name :: names, e = .duplicate n ∧ d.scopes.Taken n := fun hbounds e d he =>
    declareArrays_eq_error hlow hhigh hbounds (hcompile.symm.trans he)
  refine ⟨arraySize?_eq_checkedSize? low high, ⟨?_, fun hbounds => ⟨_, _, _, _, hrefused hbounds⟩⟩,
    hrefused, htaken, fun lines d hok => ⟨?_, ?_⟩⟩
  · rintro ⟨n, l, h, d, he⟩ hbounds
    obtain ⟨_, -, he, -⟩ := htaken hbounds _ d he
    cases he
  · by_contra hbounds
    cases (hrefused hbounds).symm.trans hok
  · obtain ⟨log, hdeclares, hnames, hdeclared, -⟩ := varDecl_code hok
    refine ⟨log, hnames, fun r hr => ?_⟩
    rcases (hdeclared r hr).shape with ⟨_, hscalar, -, -⟩ | ⟨_, _, _, l, k, t', htype, -, hl, hh, hsize, hshape⟩
    · cases hscalar
    · cases htype
      cases hlow.symm.trans hl
      cases hhigh.symm.trans hh
      have hsize := arraySize?_toInt hsize
      refine ⟨hsize, fun he => ?_, Region.elementAddresses hshape hsize⟩
      exact Scopes.resolve?_of_currentTable (hdeclares.declares.found he r hr)

/-- Three elements at the upper end of the machine integers. -/
def lastDecl : VarDecl :=
  ⟨["a"], .array (.constant (.integer 9223372036854775805)) (.constant (.integer 9223372036854775807)) .real⟩

/-- Bounds whose distance is no machine integer. -/
def widestDecl : VarDecl :=
  ⟨["a"], .array (.signed .minus (.constant (.integer 9223372036854775807)))
    (.constant (.integer 9223372036854775807)) .real⟩

/-- The code of the address of the second element of `lastDecl`. -/
def lastCode : Code :=
  #[.ok (.pushi 9223372036854775806), .ok (.pushi 9223372036854775805), .ok (.basic (.arith .sub)),
    .ok (.pushi 0), .ok (.basic (.arith .add)), .ok (.pop 1)]

/-- The greatest index reaches the last element, and the least one, which comes next, is not taken for one of
the array. -/
theorem array_addressing_lastDecl :
    widestDecl.compile .initial =
      .error (.invalidBounds "a" (-9223372036854775807) 9223372036854775807) .initial ∧
    ∃ lines d r, lastDecl.compile .initial = .ok lines d ∧ d.scopes.resolve? "a" = some (Region.asVariable r) ∧
      r.slot = 0 ∧ r.size = 3 ∧ (r.asVariable.reach 9223372036854775807).toInt = 2 ∧
      ¬(0 ≤ (r.asVariable.reach Int64.minValue).toInt ∧ (r.asVariable.reach Int64.minValue).toInt < 3) ∧
      runFrom lastCode 4 1 ⟨[.integer 9223372036854775806], #[], [], [], ""⟩ =
        (.suspended 5, ⟨[.integer (r.asVariable.reach 9223372036854775806)], #[], [], [], ""⟩) := by
  have hcompile : ∃ lines d, lastDecl.compile .initial = .ok lines d ∧
      d.scopes.resolve? "a" = some ⟨0, .array 9223372036854775805 .real⟩ :=
    ⟨_, _, rfl, rfl⟩
  obtain ⟨lines, d, hcompile, ha⟩ := hcompile
  have hentered : Compiler.initial.scopes.Entered := nofun
  obtain ⟨-, -, hwidest, -, -⟩ := array_addressing (v := widestDecl) rfl rfl rfl rfl .initial
  obtain ⟨-, -, -, -, hlast⟩ := array_addressing (v := lastDecl) rfl rfl rfl rfl .initial
  obtain ⟨-, log, hnames, hlog⟩ := hlast lines d hcompile
  obtain ⟨r, hr, hname⟩ := List.mem_map.mp (hnames ▸ List.mem_singleton_self "a" : "a" ∈ log.map Region.name)
  obtain ⟨hsize, hresolve, haddresses⟩ := hlog r hr
  have hvariable : r.asVariable = ⟨0, .array 9223372036854775805 .real⟩ :=
    Option.some.inj ((hresolve hentered).symm.trans (hname ▸ ha))
  have hslot : r.slot = 0 := congrArg Variable.slot hvariable
  have hsize : r.size = 3 := Int.ofNat.inj hsize
  have haddresses := haddresses (by rw [hslot, hsize]; decide)
  have hindex : addressOf r.asVariable (.constant (.integer 9223372036854775806))
      (Expr.compile (.constant (.integer 9223372036854775806))) d =
        .ok (emit [.pushi 9223372036854775806] ++ addressCode r.asVariable) d := by
    rw [hvariable]
    rfl
  obtain ⟨index, hcode, hleaves⟩ := haddresses.leaves hindex
  have hplaced : Placed lastCode (fun _ => none) 0
      (emit [.pushi 9223372036854775806] ++ addressCode r.asVariable) 5 := by
    rw [hvariable]
    exact ⟨fun _ => ⟨_, rfl, rfl⟩, fun _ => ⟨_, rfl, rfl⟩, fun _ => ⟨_, rfl, rfl⟩, fun _ => ⟨_, rfl, rfl⟩,
      fun _ => ⟨_, rfl, rfl⟩, rfl⟩
  obtain ⟨m, hm, hrun⟩ := hleaves hplaced
  cases hcode
  obtain ⟨-, rfl⟩ := Placed.single hm
  have hown := (not_congr (haddresses.own Int64.minValue)).mpr (by decide)
  rw [hslot, hsize] at hown
  refine ⟨hwidest (by decide), lines, d, r, hcompile, ?_, hslot, hsize, ?_, hown, hrun rfl 0⟩
  · rw [ha, hvariable]
  · rw [haddresses.within _ (by decide) (by decide), hslot]
    decide

end PascalStack
