import PascalStack.Proofs.Simulation.Elements
import PascalStack.Proofs.Simulation.Expressions
import PascalStack.Proofs.Soundness.Paths

/-!
# Code of expressions keeps to types

* `Setting.Has`, `Setting.Admits`   slots, elements and functions have the types of their names;
* `Setting.Supplies`    what the code of an expression reads has been written;
* `Path.operator`, `Path.power`, ...   code of operators;
* `Expr.keeps`          the code of an expression leaves a value of the type that is inferred for it.
-/

namespace PascalStack

structure Setting.Has (W : Setting) (n : Nat) (t : DataType) : Prop where
  lt : n < maxGlobals
  fits : ∀ v, W.fits n v ↔ t.Holds v

/-- Slots, elements and functions have the types of the names in sight. -/
structure Setting.Admits (W : Setting) (targets : String → Option Nat) (S : Scopes) : Prop where
  slot : ∀ {id v}, S.resolve? id = some v → v.type ≠ .array → W.Has v.slot v.type
  element : ∀ {id v}, S.resolve? id = some v → v.type = .array → ∀ {j}, AddressAt W.code j v →
    ∀ i, W.within (j + 4) i → ∃ n : Nat, i.toInt = n ∧ W.Has n v.element ∧ v.element.Holds .zero
  callable : ∀ {name f}, S.Callable name f → ∃ e, targets f.label = some e ∧ W.entry e f.parameters f.result

/-- The variables that code reads have been written, or need not be; the same goes for the slots that the
functions it calls rely on. -/
structure Setting.Supplies (W : Setting) (R : Nat → Prop) (S : Scopes) (lines : List Line) : Prop where
  slot : ∀ {id v}, S.resolve? id = some v → v.type ≠ .array → .op (.pushg (some v.slot)) ∈ lines →
    R v.slot ∨ W.fits v.slot .zero
  call : .op (.basic .call) ∈ lines → ∀ n, W.globals n → R n

theorem Setting.Supplies.mono {W : Setting} {R : Nat → Prop} {S : Scopes} {a b : List Line}
    (h : W.Supplies R S b) (hab : a ⊆ b) : W.Supplies R S a :=
  ⟨fun hr ht hload => h.slot hr ht (hab hload), fun hcall => h.call (hab hcall)⟩

theorem Setting.Supplies.left {W : Setting} {R : Nat → Prop} {S : Scopes} {a b : List Line}
    (h : W.Supplies R S (a ++ b)) : W.Supplies R S a := h.mono (List.subset_append_left a b)

theorem Setting.Supplies.right {W : Setting} {R : Nat → Prop} {S : Scopes} {a b : List Line}
    (h : W.Supplies R S (a ++ b)) : W.Supplies R S b := h.mono (List.subset_append_right a b)

section
variable {W : Setting} {targets : String → Option Nat} {J F R : Nat → Prop} {Γ : List Kind} {p q : Nat}

/-! ## operators -/

theorem Path.one {o : Op Nat} {R' : Nat → Prop} {Γ' : List Kind} (hop : W.code[p]? = some (.ok o))
    (htypes : o.Types W p R Γ R' Γ') : Path W J F p R Γ (p + 1) R' Γ' := .op hop htypes .refl

theorem Path.unary {b : Basic} {K K' : Kind} (hb : b.isUnary = true)
    (hp : Placed W.code targets p (emitBasic [b]) q) (h : ∀ v, K v → Safely K' (b.unary v)) :
    Path W J F p R (K :: Γ) q R (K' :: Γ) := by
  obtain ⟨hop, rfl⟩ := hp.basic
  exact .one hop (.unary hb h)

theorem Path.binary {b : Basic} {K₁ K₂ K' : Kind} (hb : b.isBinary = true)
    (hp : Placed W.code targets p (emitBasic [b]) q) (h : ∀ l r, K₁ l → K₂ r → Safely K' (b.binary l r)) :
    Path W J F p R (K₂ :: K₁ :: Γ) q R (K' :: Γ) := by
  obtain ⟨hop, rfl⟩ := hp.basic
  exact .one hop (.binary hb h)

theorem Path.push {op : Op String} {o : Op Nat} {u : Value} {K : Kind} (hf : op.fits = true)
    (hr : op.resolve? targets = some o) (hu : o.pushed? = some u) (hK : K u)
    (hp : Placed W.code targets p (emit [op]) q) : Path W J F p R Γ q R (K :: Γ) := by
  obtain ⟨hop, rfl⟩ := hp.single
  obtain ⟨o', ho, hcode⟩ := hop hf
  cases hr.symm.trans ho
  exact .one hcode (.push hu hK)

theorem Path.constant {c : Constant} (hp : Placed W.code targets p (emit [c.push]) q) :
    Path W J F p R Γ q R (c.type.Holds :: Γ) := by
  cases c with
  | integer n => exact .push rfl rfl rfl (.integer n) hp
  | real x => exact .push rfl rfl rfl (.real x) hp
  | char c => exact .push rfl rfl rfl (.char c) hp
  | string s => exact .push rfl rfl rfl (.string s) hp
  | nil => exact .push rfl rfl rfl (.integer 0) hp

theorem Path.assignable {t u : DataType} {c : Option Conversion} (h : Assignable t u c)
    (hp : Placed W.code targets p (emitConversion c) q) : Path W J F p R (u.Holds :: Γ) q R (t.Holds :: Γ) := by
  cases h with
  | same _ =>
    cases hp
    exact .refl
  | widen => exact .unary rfl hp fun v hv => itof_holds hv rfl
  | narrow => exact .unary rfl hp fun v hv => ftoi_holds hv rfl

theorem Path.operand {a : Arithmetic} {t : DataType}
    (hp : Placed W.code targets p (emitConversion (a.conversion t)) q) :
    Path W J F p R (t.Holds :: Γ) q R ((a.operandType t).Holds :: Γ) := by
  cases a with
  | integer =>
    cases hp
    exact .refl
  | real =>
    cases t with
    | integer => exact .unary rfl hp fun v hv => itof_holds hv rfl
    | _ =>
      cases hp
      exact .refl

theorem Path.operator {op : BinaryOp} {lt rt : DataType} {a : Arithmetic}
    (h : operandArithmetic op lt rt = .ok a) (hp : Placed W.code targets p (emitBasic (op.code a)) q) :
    Path W J F p R ((a.operandType rt).Holds :: (a.operandType lt).Holds :: Γ) q R
      ((op.resultType lt rt).Holds :: Γ) := by
  have hop : op ≠ .member := by
    rintro rfl
    cases h
  have hsafe l r (hl : (a.operandType lt).Holds l) (hr : (a.operandType rt).Holds r) :=
    BinaryOp.apply_holds h hl hr
  cases op with
  | member => exact absurd rfl hop
  | notEqual =>
    obtain ⟨m, hequal, hnot⟩ := hp.uncons
    have hfirst : Path W J F p R ((a.operandType rt).Holds :: (a.operandType lt).Holds :: Γ) m R
        (DataType.boolean.Holds :: Γ) := .binary rfl hequal fun l r _ _ => holds_ofBool _
    exact hfirst.trans (.unary rfl hnot fun v _ => holds_ofBool _)
  | _ => cases a <;> exact .binary rfl hp hsafe

theorem Path.sign {sign : Sign} {t : DataType} (ht : t.isNumeric = true)
    (hp : Placed W.code targets p (emit (sign.code t)) q) : Path W J F p R (t.Holds :: Γ) q R (t.Holds :: Γ) := by
  cases sign with
  | plus =>
    cases hp
    exact .refl
  | minus =>
    cases t with
    | real =>
      obtain ⟨m, hpush, hmul⟩ := hp.uncons
      have hone : Path W J F p R (DataType.real.Holds :: Γ) m R (DataType.real.Holds :: DataType.real.Holds :: Γ) :=
        .push rfl rfl rfl (.real _) hpush
      exact hone.trans (.binary rfl hmul fun l r hl hr => realArith_holds .mul hl hr rfl rfl)
    | integer =>
      obtain ⟨m, hpush, hmul⟩ := hp.uncons
      have hone : Path W J F p R (DataType.integer.Holds :: Γ) m R
          (DataType.integer.Holds :: DataType.integer.Holds :: Γ) := .push rfl rfl rfl (.integer _) hpush
      exact hone.trans (.binary rfl hmul fun l r hl hr => arith_holds .mul hl hr rfl rfl)
    | _ => cases ht

/-- Copies of a value. -/
theorem Path.copies {K : Kind} {k : Nat} (hp : Placed W.code targets p (emit (List.replicate k (.dup 1))) q) :
    Path W J F p R (K :: Γ) q R (List.replicate (k + 1) K ++ Γ) := by
  induction k generalizing p Γ with
  | zero =>
    cases hp
    exact .refl
  | succ k ih =>
    obtain ⟨m, hdup, hrest⟩ := hp.uncons
    obtain ⟨hop, rfl⟩ := hdup.single
    obtain ⟨o, ho, hcode⟩ := hop (by decide)
    cases ho
    rw [List.replicate_succ', List.append_assoc]
    exact .op hcode .copy (ih hrest)

/-- The products of a power. -/
theorem Path.products {t : DataType} (ht : t.isNumeric = true) {k : Nat}
    (hp : Placed W.code targets p (emitBasic (List.replicate k (multiplyOf t))) q) :
    Path W J F p R (List.replicate (k + 1) t.Holds ++ Γ) q R (t.Holds :: Γ) := by
  induction k generalizing p with
  | zero =>
    cases hp
    exact .refl
  | succ k ih =>
    obtain ⟨m, hmul, hrest⟩ := hp.uncons
    have hb : (multiplyOf t).isBinary = true := by
      unfold multiplyOf
      split <;> rfl
    exact (Path.binary hb hmul fun l r hl hr => multiplyOf_holds ht hl hr).trans (ih hrest)

theorem Path.unit {t : DataType} (ht : t.isNumeric = true) (hp : Placed W.code targets p (emit [oneOf t]) q) :
    Path W J F p R Γ q R (t.Holds :: Γ) := by
  cases t with
  | integer => exact .push rfl rfl rfl (.integer 1) hp
  | real => exact .push rfl rfl rfl (.real 1) hp
  | _ => cases ht

/-! ## variables and calls -/

theorem Path.load {t : DataType} {slot : Nat} (h : W.Has slot t) (hR : R slot ∨ W.fits slot .zero)
    (hp : Placed W.code targets p (emit [.pushg (some slot)]) q) : Path W J F p R Γ q R (t.Holds :: Γ) := by
  obtain ⟨hop, rfl⟩ := hp.single
  obtain ⟨o, ho, hcode⟩ := hop (decide_eq_true (Nat.lt_of_lt_of_le h.lt (by decide)))
  cases ho
  exact .one hcode (.load h.lt hR fun v => (h.fits v).mp)

theorem Path.store {t : DataType} {slot : Nat} (h : W.Has slot t)
    (hp : Placed W.code targets p (emit [.storeg (some slot)]) q) :
    Path W J F p R (t.Holds :: Γ) q (fun i => i = slot ∨ R i) Γ := by
  obtain ⟨hop, rfl⟩ := hp.single
  obtain ⟨o, ho, hcode⟩ := hop (decide_eq_true (Nat.lt_of_lt_of_le h.lt (by decide)))
  cases ho
  exact .one hcode (.store h.lt fun v => (h.fits v).mpr)

/-- The code of an address, instruction by instruction. -/
theorem addressAt_of_placed {v : Variable} (hp : Placed W.code targets p (addressCode v) q) :
    AddressAt W.code p v ∧ q = p + 4 := by
  obtain ⟨hlow, hminus, hbase, hplus, rfl⟩ := hp
  obtain ⟨_, ho, hlow⟩ := hlow rfl
  cases ho
  obtain ⟨_, ho, hminus⟩ := hminus rfl
  cases ho
  obtain ⟨_, ho, hbase⟩ := hbase rfl
  cases ho
  obtain ⟨_, ho, hplus⟩ := hplus rfl
  cases ho
  exact ⟨⟨hlow, hminus, hbase, hplus⟩, rfl⟩

theorem AddressAt.path {v : Variable} (h : AddressAt W.code p v) :
    Path W J F p R (DataType.integer.Holds :: Γ) (p + 4) R (DataType.integer.Holds :: Γ) :=
  .op h.low (.push rfl (.integer v.low)) <|
  .op h.minus (.binary rfl fun _ _ hl hr => arith_holds .sub hl hr rfl rfl) <|
  .op h.base (.push rfl (.integer _)) <|
  .op h.plus (.binary rfl fun _ _ hl hr => arith_holds .add hl hr rfl rfl) .refl

section
variable {S : Scopes} {id : String} {v : Variable}

theorem Path.loadElement (hW : W.Admits targets S) (hr : S.resolve? id = some v) (hv : v.type = .array)
    (hp : Placed W.code targets p (addressCode v ++ emit [.pushg none]) q) :
    Path W J F p R (DataType.integer.Holds :: Γ) q R (v.element.Holds :: Γ) := by
  obtain ⟨m, haddress, hload⟩ := placed_append.mp hp
  obtain ⟨hat, rfl⟩ := addressAt_of_placed haddress
  obtain ⟨hop, rfl⟩ := hload.single
  obtain ⟨o, ho, hcode⟩ := hop rfl
  cases ho
  refine hat.path.trans (.one hcode (.loadElement fun i hi => ?_))
  obtain ⟨n, hn, hhas, hzero⟩ := hW.element hr hv hat i hi
  exact ⟨n, hn, hhas.lt, (hhas.fits _).mpr hzero, fun v => (hhas.fits v).mp⟩

theorem Path.storeElement (hW : W.Admits targets S) (hr : S.resolve? id = some v) (hv : v.type = .array)
    (hp : Placed W.code targets p (addressCode v ++ emit [.storeg none]) q) :
    Path W J F p R (DataType.integer.Holds :: v.element.Holds :: Γ) q R Γ := by
  obtain ⟨m, haddress, hstore⟩ := placed_append.mp hp
  obtain ⟨hat, rfl⟩ := addressAt_of_placed haddress
  obtain ⟨hop, rfl⟩ := hstore.single
  obtain ⟨o, ho, hcode⟩ := hop rfl
  cases ho
  refine hat.path.trans (.one hcode (.storeElement fun i hi => ?_))
  obtain ⟨n, hn, hhas, _⟩ := hW.element hr hv hat i hi
  exact ⟨n, hn, hhas.lt, fun v => (hhas.fits v).mpr⟩

/-- A character of a text; the text lies below the position. -/
theorem Path.character (hp : Placed W.code targets p characterCode q) :
    Path W J F p R (DataType.integer.Holds :: DataType.string.Holds :: Γ) q R (DataType.char.Holds :: Γ) := by
  obtain ⟨m₁, hone, hp⟩ := hp.uncons
  obtain ⟨m₂, hsub, hchar⟩ := hp.uncons
  have hpush : Path W J F p R (DataType.integer.Holds :: DataType.string.Holds :: Γ) m₁ R
      (DataType.integer.Holds :: DataType.integer.Holds :: DataType.string.Holds :: Γ) :=
    .push rfl rfl rfl (.integer 1) hone
  have hminus : Path W J F m₁ R (DataType.integer.Holds :: DataType.integer.Holds :: DataType.string.Holds :: Γ) m₂ R
      (DataType.integer.Holds :: DataType.string.Holds :: Γ) :=
    .binary rfl hsub fun l r hl hr => arith_holds .sub hl hr rfl rfl
  exact hpush.trans (hminus.trans (.binary rfl hchar fun l r => charat_holds))

theorem call_mem_callCode (label : String) : .op (.basic .call) ∈ callCode label :=
  List.mem_cons_of_mem _ (List.mem_singleton_self _)

theorem Path.callOf {f : Signature} {name : String} (hW : W.Admits targets S) (hf : S.Callable name f)
    (hR : ∀ n, W.globals n → R n) (hp : Placed W.code targets p (callCode f.label) q) :
    Path W J F p R (f.parameters.reverse.map DataType.Holds ++ Γ) q R (f.result.Holds :: Γ) := by
  obtain ⟨e, he, hentry⟩ := hW.callable hf
  obtain ⟨m, hpush, hcall⟩ := hp.uncons
  obtain ⟨hop, rfl⟩ := Placed.basic hcall
  have haddress : Path W J F p R (f.parameters.reverse.map DataType.Holds ++ Γ) m R
      ((· = .address e) :: (f.parameters.reverse.map DataType.Holds ++ Γ)) :=
    .push rfl (by rw [Op.resolve?, he]; rfl) rfl rfl hpush
  exact haddress.trans (.call hop (fun v hv => ⟨e, hv, hentry⟩) hR .refl)

end

end

/-! ## expressions -/

section
variable (W : Setting) (targets : String → Option Nat) (S : Scopes)

def Expr.Kept (e : Expr) : Prop :=
  e.setFree = true → ∀ {lines t}, ExprCode S e lines → S.infer e = .ok t → ∀ {J F R : Nat → Prop} {Γ p q},
    Placed W.code targets p lines q → W.Supplies R S lines → Path W J F p R Γ q R (t.Holds :: Γ)

def Access.Kept (a : Access) : Prop :=
  a.setFree = true → ∀ {lines t}, AccessCode S a lines → S.access a = .ok t → ∀ {J F R : Nat → Prop} {Γ p q},
    Placed W.code targets p lines q → W.Supplies R S lines → Path W J F p R Γ q R (t.Holds :: Γ)

/-- The last argument is on top. -/
def ArgumentsKept (arguments : List Argument) : Prop :=
  argumentsSetFree arguments = true → ∀ {lines ts}, ArgumentsCode S ts arguments lines →
    ∀ {J F R : Nat → Prop} {Γ p q}, Placed W.code targets p lines q → W.Supplies R S lines →
      Path W J F p R Γ q R (ts.reverse.map DataType.Holds ++ Γ)

end

section
variable {W : Setting} {targets : String → Option Nat} {S : Scopes}

theorem Scopes.infer_binary {op : BinaryOp} {left right : Expr} {lt rt : DataType} (hl : S.infer left = .ok lt)
    (hr : S.infer right = .ok rt) : S.infer (.binary op left right) = .ok (op.resultType lt rt) := by
  rw [Scopes.infer, BinaryOp.resultType, hl, hr]
  split <;> rfl

theorem binary_kept {op : BinaryOp} {left right : Expr} (hl : left.Kept W targets S)
    (hr : right.Kept W targets S) : (Expr.binary op left right).Kept W targets S := by
  intro hs lines t h ht J F R Γ p q hp hR
  rw [Expr.setFree, Bool.and_eq_true] at hs
  cases h with
  | binary hlt hrt ha hleft hright =>
    cases (S.infer_binary hlt hrt).symm.trans ht
    obtain ⟨m₄, hp, hoperator⟩ := placed_append.mp hp
    obtain ⟨m₃, hp, hrconv⟩ := placed_append.mp hp
    obtain ⟨m₂, hp, hrcode⟩ := placed_append.mp hp
    obtain ⟨m₁, hlcode, hlconv⟩ := placed_append.mp hp
    refine (hl hs.1 hleft hlt hlcode hR.left.left.left.left).trans ((Path.operand hlconv).trans ?_)
    refine (hr hs.2 hright hrt hrcode hR.left.left.right).trans ((Path.operand hrconv).trans ?_)
    exact .operator ha hoperator

theorem signed_kept {sign : Sign} {operand : Expr} (ho : operand.Kept W targets S) :
    (Expr.signed sign operand).Kept W targets S := by
  intro hs lines t h ht J F R Γ p q hp hR
  rw [Expr.setFree] at hs
  rw [Scopes.infer] at ht
  cases h with
  | signed ht' hnumeric hcode =>
    cases ht'.symm.trans ht
    obtain ⟨m, hoperand, hsign⟩ := placed_append.mp hp
    exact (ho hs hcode ht hoperand hR.left).trans (.sign hnumeric hsign)

theorem power_kept {base exponent : Expr} (hb : base.Kept W targets S) :
    (Expr.power base exponent).Kept W targets S := by
  intro hs lines t h ht J F R Γ p q hp hR
  rw [Expr.setFree, Bool.and_eq_true] at hs
  rw [Scopes.infer] at ht
  cases h with
  | unit _ ht' hnumeric =>
    cases ht'.symm.trans ht
    exact .unit hnumeric hp
  | power _ ht' hnumeric hcode =>
    cases ht'.symm.trans ht
    rw [powerCode] at hp hR
    obtain ⟨m, hp, hproducts⟩ := placed_append.mp hp
    obtain ⟨m', hbase, hcopies⟩ := placed_append.mp hp
    exact (hb hs.1 hcode ht hbase hR.left.left).trans ((Path.copies hcopies).trans (.products hnumeric hproducts))

theorem not_kept {operand : Expr} (ho : operand.Kept W targets S) : (Expr.not operand).Kept W targets S := by
  intro hs lines t h ht J F R Γ p q hp hR
  rw [Expr.setFree] at hs
  rw [Scopes.infer] at ht
  cases ht
  cases h with
  | not ht' _ hcode =>
    obtain ⟨m, hoperand, hnot⟩ := placed_append.mp hp
    exact (ho hs hcode ht' hoperand hR.left).trans (.unary rfl hnot fun v _ => holds_ofBool _)

theorem constant_kept (c : Constant) : (Expr.constant c).Kept W targets S := by
  intro _ lines t h ht J F R Γ p q hp _
  rw [Scopes.infer] at ht
  cases ht
  cases h with
  | constant => exact .constant hp

theorem access_kept {a : Access} (ha : a.Kept W targets S) : (Expr.access a).Kept W targets S := by
  intro hs lines t h ht J F R Γ p q hp hR
  rw [Expr.setFree] at hs
  rw [Scopes.infer] at ht
  cases h with
  | access hcode => exact ha hs hcode ht hp hR

theorem set_kept (members : List Member) : (Expr.set members).Kept W targets S := by
  intro hs
  rw [Expr.setFree] at hs
  cases hs

/-! ## names -/

theorem name_kept (hW : W.Admits targets S) (id : String) : (Access.name id).Kept W targets S := by
  intro _ lines t h ht J F R Γ p q hp hR
  rw [Scopes.access] at ht
  cases h with
  | truth htruth =>
    rw [htruth] at ht
    cases ht
    exact .push rfl rfl rfl (.boolean _) hp
  | plain htruth hr hv =>
    rw [htruth, hr] at ht
    cases ht
    exact .load (hW.slot hr hv) (hR.slot hr hv (List.mem_singleton_self _)) hp
  | function htruth hr hf hnone =>
    rw [htruth, hr, hf.function] at ht
    cases ht
    have hpath : Path W J F p R ([] ++ Γ) q R (_ :: Γ) :=
      hnone ▸ Path.callOf hW hf (hR.call (call_mem_callCode _)) hp
    exact hpath

theorem Scopes.access_element {id : String} {v : Variable} {i : Expr} (hr : S.resolve? id = some v)
    (hv : v.type = .array) : S.access (.index (.name id) [i]) = .ok v.element := by
  simp only [Scopes.access, Scopes.indexed, hr, Scopes.elementType, hv, bind, Except.bind]

theorem Scopes.access_character {id : String} {v : Variable} {i : Expr} (hr : S.resolve? id = some v)
    (hv : v.type = .string) : S.access (.index (.name id) [i]) = .ok .char := by
  simp only [Scopes.access, Scopes.indexed, hr, Scopes.elementType, hv, bind, Except.bind]

theorem index_kept (hW : W.Admits targets S) {id : String} {i : Expr} (hi : i.Kept W targets S) :
    (Access.index (.name id) [i]).Kept W targets S := by
  intro hs lines t h ht J F R Γ p q hp hR
  simp only [Access.setFree, exprsSetFree, Bool.and_true, Bool.true_and] at hs
  cases h with
  | element hr hv hindex hcode =>
    cases (S.access_element hr hv).symm.trans ht
    rw [List.append_assoc] at hp hR
    obtain ⟨m, hplaced, hload⟩ := placed_append.mp hp
    exact (hi hs hcode hindex hplaced hR.left).trans (.loadElement hW hr hv hload)
  | @character _ v _ _ hr hv hindex hcode =>
    cases (S.access_character hr hv).symm.trans ht
    obtain ⟨m₁, hp, hchar⟩ := placed_append.mp hp
    obtain ⟨m₂, hload, hplaced⟩ := placed_append.mp hp
    have hne : v.type ≠ .array := by
      intro harray
      cases hv.symm.trans harray
    have hslot := hW.slot hr hne
    rw [hv] at hslot
    refine (Path.load hslot (hR.left.left.slot hr hne (List.mem_singleton_self _)) hload).trans ?_
    exact (hi hs hcode hindex hplaced hR.left.right).trans (.character hchar)

/-! ## arguments and calls -/

theorem arguments_kept_nil : ArgumentsKept W targets S [] := by
  intro _ lines ts h J F R Γ p q hp _
  cases h with
  | nil =>
    cases hp
    exact .refl

theorem arguments_kept_cons {e : Expr} {arguments : List Argument} (he : e.Kept W targets S)
    (hrest : ArgumentsKept W targets S arguments) : ArgumentsKept W targets S (.value e :: arguments) := by
  intro hs lines ts h J F R Γ p q hp hR
  rw [argumentsSetFree, Argument.setFree, Bool.and_eq_true] at hs
  cases h with
  | @cons t _ ts _ _ _ _ _ ht hassign hcode hmore =>
    obtain ⟨m₂, hp, hplaced⟩ := placed_append.mp hp
    obtain ⟨m₁, hvalue, hconv⟩ := placed_append.mp hp
    rw [List.reverse_cons, List.map_append, List.append_assoc]
    exact (he hs.1 hcode ht hvalue hR.left.left).trans
      ((Path.assignable hassign hconv).trans (hrest hs.2 hmore hplaced hR.right))

theorem Path.builtin {b : Builtin} {t : DataType} {J F R : Nat → Prop} {Γ : List Kind} {p q : Nat}
    (hb : b.result? = some t) (hp : Placed W.code targets p (emitBasic b.epilogue) q) :
    Path W J F p R (b.parameters.reverse.map DataType.Holds ++ Γ) q R (t.Holds :: Γ) := by
  cases b with
  | length =>
    cases hb
    exact .unary rfl hp fun v => strlen_holds
  | charat =>
    cases hb
    exact .binary rfl hp fun l r => charat_holds
  | _ => cases hb

theorem call_kept (hW : W.Admits targets S) {name : String} {arguments : List Argument}
    (ha : ArgumentsKept W targets S arguments) : (Expr.call name arguments).Kept W targets S := by
  intro hs lines t h ht J F R Γ p q hp hR
  rw [Expr.setFree] at hs
  rw [Scopes.infer, Scopes.callType] at ht
  cases h with
  | @builtin _ _ b _ hb hfun hcode =>
    obtain ⟨m, hplaced, hepilogue⟩ := placed_append.mp hp
    obtain ⟨u, hu⟩ := Option.isSome_iff_exists.mp hfun
    simp only [hb, hu] at ht
    cases ht
    exact (ha hs hcode hplaced hR.left).trans (.builtin hu hepilogue)
  | call hb hf hcode =>
    obtain ⟨m, hplaced, hcall⟩ := placed_append.mp hp
    simp only [hb, hf.function] at ht
    cases ht
    exact (ha hs hcode hplaced hR.left).trans (.callOf hW hf (hR.right.call (call_mem_callCode _)) hcall)

/-! ## all expressions -/

mutual

/-- **The code of an expression leaves a value of the type that is inferred for it.** -/
theorem Expr.keeps (hW : W.Admits targets S) : (e : Expr) → e.Kept W targets S
  | .access a => access_kept (Access.keeps hW a)
  | .call _ arguments => call_kept hW (arguments_keep hW arguments)
  | .binary _ left right => binary_kept (Expr.keeps hW left) (Expr.keeps hW right)
  | .signed _ operand => signed_kept (Expr.keeps hW operand)
  | .power base _ => power_kept (Expr.keeps hW base)
  | .not operand => not_kept (Expr.keeps hW operand)
  | .constant c => constant_kept c
  | .set members => set_kept members

theorem Access.keeps (hW : W.Admits targets S) : (a : Access) → a.Kept W targets S
  | .name id => name_kept hW id
  | .index (.name _) [i] => index_kept hW (Expr.keeps hW i)
  | .index (.name _) [] => fun _ _ _ h => nomatch h
  | .index (.name _) (_ :: _ :: _) => fun _ _ _ h => nomatch h
  | .index (.index _ _) _ => fun _ _ _ h => nomatch h
  | .index (.field _ _) _ => fun _ _ _ h => nomatch h
  | .index (.deref _) _ => fun _ _ _ h => nomatch h
  | .field _ _ => fun _ _ _ h => nomatch h
  | .deref _ => fun _ _ _ h => nomatch h

theorem arguments_keep (hW : W.Admits targets S) : (arguments : List Argument) → ArgumentsKept W targets S arguments
  | [] => arguments_kept_nil
  | .value e :: arguments => arguments_kept_cons (Expr.keeps hW e) (arguments_keep hW arguments)
  | .wide _ _ :: _ => fun _ _ _ h => nomatch h
  | .precise _ _ _ :: _ => fun _ _ _ h => nomatch h

end

end

end PascalStack
