import PascalStack.Proofs.Compiler.Translation
import PascalStack.Proofs.Machine.Placed

/-!
# Code of expressions follows their evaluation

* `Computes.apply_binary`, `Computes.power`, ...   code of operators;
* `CallsComputed`      what is asked of the code of functions;
* `Expr.computes`      the code of an expression leaves its value on the stack.
-/

namespace PascalStack

section
variable {code : Code} {targets : String → Option Nat} {w : Watch} {n p q : Nat}

/-! ## operators -/

theorem Computes.unary {b : Basic} {v : Value} (hb : b.isUnary = true)
    (hp : Placed code targets p (emitBasic [b]) q) :
    Computes code w n p q [v] (Eval.lift (b.unary v)) fun u => [u] := by
  obtain ⟨hop, rfl⟩ := hp.basic
  exact .of_quiet hop (by cases b <;> first | rfl | cases hb) (does_unary hb)

theorem Computes.binary {b : Basic} {l r : Value} (hb : b.isBinary = true)
    (hp : Placed code targets p (emitBasic [b]) q) :
    Computes code w n p q [r, l] (Eval.lift (b.binary l r)) fun u => [u] := by
  obtain ⟨hop, rfl⟩ := hp.basic
  exact .of_quiet hop (by cases b <;> first | rfl | cases hb) (does_binary hb)

/-- An instruction pushes a value, and the code after it finds the value on top. -/
theorem Computes.push {α : Type} {op : Op String} {o : Op Nat} {u : Value} {m : Nat} {x : Eval α}
    {before : List Value} {after : α → List Value} (hf : op.fits = true)
    (hr : op.resolve? targets = some o) (hq : o.isQuiet = true)
    (hexec : ∀ p, o.exec p = (Exec.push u >>= fun _ => Pure.pure (.goto (p + 1))))
    (hp : Placed code targets p (emit [op]) m) (h : Computes code w n m q (u :: before) x after) :
    Computes code w n p q before x after := by
  obtain ⟨hop, rfl⟩ := hp.single
  obtain ⟨o', ho, hcode⟩ := hop hf
  rw [hr] at ho
  cases ho
  have hpush : Computes code w n p (p + 1) [] (Pure.pure ()) fun _ => [u] :=
    .of_quiet hcode hq (does_push (hexec p))
  exact (hpush.frame before).bind fun _ => h

theorem Computes.constant {c : Constant} (hp : Placed code targets p (emit [c.push]) q) :
    Computes code w n p q [] (Pure.pure c.value) fun v => [v] := by
  cases c <;> exact .push rfl rfl rfl (fun _ => rfl) hp (.value _)

theorem Computes.conversion {c : Option Conversion} {v : Value}
    (hp : Placed code targets p (emitConversion c) q) :
    Computes code w n p q [v] (Eval.lift (Conversion.apply c v)) fun u => [u] := by
  cases c with
  | none =>
    cases hp
    exact .value v
  | some c =>
    cases c with
    | itof => exact Computes.unary rfl hp
    | ftoi => exact Computes.unary rfl hp

theorem Eval.lift_bind {α β : Type} (e : Except Fault α) (f : α → Except Fault β) :
    Eval.lift (e >>= f) = Eval.lift e >>= fun a => Eval.lift (f a) := by
  cases e <;> rfl

theorem Computes.operator {op : BinaryOp} {a : Arithmetic} {l r : Value} (hop : op ≠ .member)
    (hp : Placed code targets p (emitBasic (op.code a)) q) :
    Computes code w n p q [r, l] (Eval.lift (op.apply a l r)) fun u => [u] := by
  cases op with
  | member => exact absurd rfl hop
  | notEqual =>
    obtain ⟨m, hequal, hnot⟩ := hp.uncons
    have heq : Eval.lift (BinaryOp.notEqual.apply a l r) =
        Eval.lift (Basic.equal.binary l r) >>= fun u => Eval.lift (Basic.not.unary u) := by
      unfold BinaryOp.apply Basic.binary
      cases l.same r <;> rfl
    rw [heq]
    exact (Computes.binary rfl hequal).bind fun u => .unary rfl hnot
  | _ => cases a <;> exact Computes.binary rfl hp

theorem Computes.product {t : DataType} {l r : Value}
    (hp : Placed code targets p (emitBasic [multiplyOf t]) q) :
    Computes code w n p q [r, l] (Eval.lift (product t l r)) fun u => [u] := by
  unfold multiplyOf at hp
  unfold PascalStack.product
  split at hp
  · rename_i ht
    rw [if_pos ht]
    exact .binary rfl hp
  · rename_i ht
    rw [if_neg ht]
    exact .binary rfl hp

theorem Computes.sign {sign : Sign} {t : DataType} {v : Value}
    (hp : Placed code targets p (emit (sign.code t)) q) :
    Computes code w n p q [v] (Eval.lift (sign.apply t v)) fun u => [u] := by
  cases sign with
  | plus =>
    cases hp
    exact .value v
  | minus =>
    unfold Sign.apply
    cases t with
    | real =>
      obtain ⟨m, hpush, hmul⟩ := hp.uncons
      exact .push rfl rfl rfl (fun _ => rfl) hpush (.product hmul)
    | _ =>
      obtain ⟨m, hpush, hmul⟩ := hp.uncons
      exact .push rfl rfl rfl (fun _ => rfl) hpush (.product hmul)

/-- Copies of a value. -/
theorem Computes.copies {k : Nat} {v : Value}
    (hp : Placed code targets p (emit (List.replicate k (.dup 1))) q) :
    Computes code w n p q [v] (Pure.pure ()) fun _ => List.replicate (k + 1) v := by
  induction k generalizing p with
  | zero =>
    obtain rfl : p = q := hp
    exact @Computes.pure code w _ n p (fun _ => [v]) ()
  | succ k ih =>
    obtain ⟨m, hdup, hrest⟩ := hp.uncons
    obtain ⟨hop, rfl⟩ := hdup.single
    obtain ⟨o, ho, hcode⟩ := hop (by decide)
    cases ho
    have hone : Computes code w n p (p + 1) [v] (Pure.pure ()) fun _ => [v, v] :=
      .of_quiet hcode rfl does_dup
    have hmore := hone.bind fun _ => (ih hrest).frame [v]
    rw [List.replicate_succ']
    exact hmore

/-- The products of a power. -/
theorem Computes.products {t : DataType} {k : Nat} {v : Value}
    (hp : Placed code targets p (emitBasic (List.replicate k (multiplyOf t))) q) :
    Computes code w n p q (List.replicate (k + 1) v) (Eval.lift (powerOf t v k)) fun u => [u] := by
  induction k generalizing q with
  | zero =>
    cases hp
    exact .value v
  | succ k ih =>
    rw [List.replicate_succ', emitBasic, List.map_append, emit, List.map_append] at hp
    obtain ⟨m, hmany, hlast⟩ := placed_append.mp hp
    rw [List.replicate_succ', powerOf, Eval.lift_bind]
    exact ((ih hmany).frame [v]).bind fun u => .product hlast

theorem Computes.power {t : DataType} {k : Nat} {base : List Line} {x : Eval Value}
    (hbase : ∀ {p q}, Placed code targets p base q → Computes code w n p q [] x fun v => [v])
    (hp : Placed code targets p (powerCode t base (k + 1)) q) :
    Computes code w n p q [] (x >>= fun v => Eval.lift (powerOf t v k)) fun u => [u] := by
  obtain ⟨m, hp, hproducts⟩ := placed_append.mp hp
  obtain ⟨m', hx, hcopies⟩ := placed_append.mp hp
  exact (hbase hx).bind fun v => (Computes.copies hcopies).bind fun _ => .products hproducts

theorem Computes.one {t : DataType} (hp : Placed code targets p (powerCode t [] 0) q) :
    Computes code w n p q [] (Pure.pure (unit t)) fun u => [u] := by
  rw [powerCode, oneOf] at hp
  unfold unit
  split at hp
  · rename_i ht
    rw [if_pos ht]
    exact .push rfl rfl rfl (fun _ => rfl) hp (.value _)
  · rename_i ht
    rw [if_neg ht]
    exact .push rfl rfl rfl (fun _ => rfl) hp (.value _)

/-! ## variables -/

theorem Computes.load {slot : Nat} (hslot : slot < wordSize)
    (hp : Placed code targets p (emit [.pushg (some slot)]) q) :
    Computes code w n p q [] (Eval.loadSlot w slot) fun v => [v] := by
  obtain ⟨hop, rfl⟩ := hp.single
  obtain ⟨o, ho, hcode⟩ := hop (decide_eq_true hslot)
  cases ho
  exact .pushg hcode

theorem Computes.store {slot : Nat} {v : Value} (hslot : slot < wordSize)
    (hp : Placed code targets p (emit [.storeg (some slot)]) q) :
    Computes code w n p q [v] (Eval.storeSlot slot v) fun _ => [] := by
  obtain ⟨hop, rfl⟩ := hp.single
  obtain ⟨o, ho, hcode⟩ := hop (decide_eq_true hslot)
  cases ho
  exact .of_quiet hcode rfl (does_storeg slot)

theorem Computes.address {a : Variable} {index : Value}
    (hp : Placed code targets p (addressCode a) q) :
    Computes code w n p q [index] (Eval.lift (a.address index)) fun u => [u] := by
  obtain ⟨m₁, hlow, hp⟩ := hp.uncons
  obtain ⟨m₂, hsub, hp⟩ := hp.uncons
  obtain ⟨m₃, hslot, hadd⟩ := hp.uncons
  unfold Variable.address
  rw [Eval.lift_bind]
  refine .push rfl rfl rfl (fun _ => rfl) hlow ((Computes.binary rfl hsub).bind fun d => ?_)
  exact .push rfl rfl rfl (fun _ => rfl) hslot (.binary rfl hadd)

/-- An element of an array is read. -/
theorem Computes.loadElement {a : Variable} {index : Value}
    (hp : Placed code targets p (addressCode a ++ emit [.pushg none]) q) :
    Computes code w n p q [index] (Eval.lift (a.elementSlot "pushg" index) >>= Eval.loadSlot w)
      fun v => [v] := by
  obtain ⟨m, haddress, hload⟩ := placed_append.mp hp
  obtain ⟨hop, rfl⟩ := hload.single
  obtain ⟨o, ho, hcode⟩ := hop rfl
  cases ho
  unfold Variable.elementSlot
  rw [Eval.lift_bind, bind_assoc]
  exact (Computes.address haddress).bind fun u => .pushg_top hcode

/-- An element of an array is written; the value lies below the index. -/
theorem Computes.storeElement {a : Variable} {index v : Value}
    (hp : Placed code targets p (addressCode a ++ emit [.storeg none]) q) :
    Computes code w n p q [index, v]
      (Eval.lift (a.elementSlot "storeg" index) >>= fun slot => Eval.storeSlot slot v) fun _ => [] := by
  obtain ⟨m, haddress, hstore⟩ := placed_append.mp hp
  obtain ⟨hop, rfl⟩ := hstore.single
  obtain ⟨o, ho, hcode⟩ := hop rfl
  cases ho
  unfold Variable.elementSlot
  rw [Eval.lift_bind, bind_assoc]
  exact ((Computes.address haddress).frame [v]).bind fun u => .of_quiet hcode rfl does_storeg_top

/-- A character of a text; the text lies below the position. -/
theorem Computes.character {text position : Value} (hp : Placed code targets p characterCode q) :
    Computes code w n p q [position, text] (Eval.lift (characterAt text position)) fun v => [v] := by
  obtain ⟨m₁, hone, hp⟩ := hp.uncons
  obtain ⟨m₂, hsub, hchar⟩ := hp.uncons
  unfold characterAt
  rw [Eval.lift_bind]
  refine .push rfl rfl rfl (fun _ => rfl) hone ?_
  exact ((Computes.binary rfl hsub).frame [text]).bind fun u => .binary rfl hchar

end

/-! ## expressions -/

section
variable (code : Code) (targets : String → Option Nat) (w : Watch) (n : Nat) (S : Scopes)
  (call : String → List Value → Eval Value)

/-- Calls of functions that may be called do what `call` does; the last argument is on top. -/
def CallsComputed : Prop :=
  ∀ name f, S.Callable name f → ∀ vs : List Value, vs.length = f.parameters.length →
    ∀ p q, Placed code targets p (callCode f.label) q →
      Computes code w n p q vs.reverse (call f.label vs) fun v => [v]

/-- The slots of variables are words. -/
def Scopes.SlotsFit : Prop := ∀ id v, S.resolve? id = some v → v.slot < wordSize

def Expr.Computed (e : Expr) : Prop :=
  e.setFree = true → ∀ {seg p q}, ExprCode S e seg → Placed code targets p seg q →
    Computes code w n p q [] (e.eval w S call) fun v => [v]

def Access.Computed (a : Access) : Prop :=
  a.setFree = true → ∀ {seg p q}, AccessCode S a seg → Placed code targets p seg q →
    Computes code w n p q [] (a.eval w S call) fun v => [v]

def ArgumentsComputed (arguments : List Argument) : Prop :=
  argumentsSetFree arguments = true → ∀ {ts seg p q}, ArgumentsCode S ts arguments seg → Placed code targets p seg q →
    Computes code w n p q [] (evalArguments w S call ts arguments) fun vs => vs.reverse

end

section
variable {code : Code} {targets : String → Option Nat} {w : Watch} {n : Nat} {S : Scopes}
  {call : String → List Value → Eval Value}

theorem Scopes.typeOf_eq {e : Expr} {t : DataType} (h : S.infer e = .ok t) : S.typeOf e = t := by
  unfold Scopes.typeOf
  rw [h]
  rfl

theorem binary_computed {op : BinaryOp} {left right : Expr} (hl : left.Computed code targets w n S call)
    (hr : right.Computed code targets w n S call) :
    (Expr.binary op left right).Computed code targets w n S call := by
  intro hs seg p q h hp
  rw [Expr.setFree, Bool.and_eq_true] at hs
  cases h with
  | @binary _ _ _ lt rt a leftCode rightCode hlt hrt ha hleft hright =>
    have harith : S.arithmetic op left right = a := by
      unfold Scopes.arithmetic
      rw [S.typeOf_eq hlt, S.typeOf_eq hrt, ha]
      rfl
    have hop : op ≠ .member := by
      rintro rfl
      cases ha
    obtain ⟨m₄, hp, hoperator⟩ := placed_append.mp hp
    obtain ⟨m₃, hp, hrconv⟩ := placed_append.mp hp
    obtain ⟨m₂, hp, hrcode⟩ := placed_append.mp hp
    obtain ⟨m₁, hlcode, hlconv⟩ := placed_append.mp hp
    rw [Expr.eval]
    refine Computes.typed _ ?_
    rw [harith, S.typeOf_eq hlt, S.typeOf_eq hrt]
    refine (hl hs.1 hleft hlcode).bind fun l => (Computes.conversion hlconv).bind fun l => ?_
    refine ((hr hs.2 hright hrcode).frame [l]).bind fun r => ?_
    exact ((Computes.conversion hrconv).frame [l]).bind fun r => .operator hop hoperator

theorem signed_computed {sign : Sign} {operand : Expr}
    (ho : operand.Computed code targets w n S call) :
    (Expr.signed sign operand).Computed code targets w n S call := by
  intro hs seg p q h hp
  rw [Expr.setFree] at hs
  cases h with
  | signed ht _ hcode =>
    obtain ⟨m, hoperand, hsign⟩ := placed_append.mp hp
    rw [Expr.eval]
    refine Computes.typed _ ?_
    rw [S.typeOf_eq ht]
    exact (ho hs hcode hoperand).bind fun v => .sign hsign

theorem power_computed {base exponent : Expr} (hb : base.Computed code targets w n S call) :
    (Expr.power base exponent).Computed code targets w n S call := by
  intro hs seg p q h hp
  rw [Expr.setFree, Bool.and_eq_true] at hs
  rw [Expr.eval]
  refine Computes.typed _ ?_
  cases h with
  | unit hexp ht _ =>
    simp only [hexp]
    rw [S.typeOf_eq ht]
    exact .one hp
  | power hexp ht _ hcode =>
    simp only [hexp]
    rw [S.typeOf_eq ht]
    exact .power (hb hs.1 hcode) hp

theorem not_computed {operand : Expr} (ho : operand.Computed code targets w n S call) :
    (Expr.not operand).Computed code targets w n S call := by
  intro hs seg p q h hp
  rw [Expr.setFree] at hs
  cases h with
  | not _ _ hcode =>
    obtain ⟨m, hoperand, hnot⟩ := placed_append.mp hp
    rw [Expr.eval]
    exact Computes.typed _ ((ho hs hcode hoperand).bind fun v => .unary rfl hnot)

theorem constant_computed (c : Constant) : (Expr.constant c).Computed code targets w n S call := by
  intro _ seg p q h hp
  cases h with
  | constant =>
    rw [Expr.eval]
    exact Computes.typed _ (.constant hp)

theorem access_computed {a : Access} (ha : a.Computed code targets w n S call) :
    (Expr.access a).Computed code targets w n S call := by
  intro hs seg p q h hp
  rw [Expr.setFree] at hs
  cases h with
  | access hcode =>
    rw [Expr.eval]
    exact Computes.typed _ (ha hs hcode hp)

theorem set_computed (members : List Member) : (Expr.set members).Computed code targets w n S call := by
  intro hs
  rw [Expr.setFree] at hs
  cases hs

/-! ## names -/

theorem name_computed (hslots : S.SlotsFit) (hcalls : CallsComputed code targets w n S call) (id : String) :
    (Access.name id).Computed code targets w n S call := by
  intro _ seg p q h hp
  rw [Access.eval]
  cases h with
  | truth ht =>
    simp only [ht]
    exact .push rfl rfl rfl (fun _ => rfl) hp (.value _)
  | plain ht hr _ =>
    simp only [ht, hr]
    exact .load (hslots id _ hr) hp
  | function ht hr hf hnone =>
    simp only [ht, hr, hf.function]
    exact hcalls id _ hf [] (by rw [hnone]; rfl) p q hp

theorem index_computed (hslots : S.SlotsFit) {id : String} {i : Expr}
    (hi : i.Computed code targets w n S call) :
    (Access.index (.name id) [i]).Computed code targets w n S call := by
  intro hs seg p q h hp
  simp only [Access.setFree, exprsSetFree, Bool.and_true, Bool.true_and] at hs
  rw [Access.eval]
  cases h with
  | element hr harray _ hcode =>
    simp only [hr, if_pos harray]
    rw [List.append_assoc] at hp
    obtain ⟨m, hindex, hload⟩ := placed_append.mp hp
    exact (hi hs hcode hindex).bind fun v => (Computes.note _).bind fun _ => .loadElement hload
  | @character _ v _ _ hr hstring _ hcode =>
    have hnot : ¬ v.type = .array := by
      rw [hstring]
      nofun
    simp only [hr, if_neg hnot]
    obtain ⟨m₁, hp, hchar⟩ := placed_append.mp hp
    obtain ⟨m₂, hload, hindex⟩ := placed_append.mp hp
    refine (Computes.load (hslots id _ hr) hload).bind fun text => ?_
    exact ((hi hs hcode hindex).frame [text]).bind fun position => .character hchar

/-! ## arguments -/

theorem arguments_computed_nil : ArgumentsComputed code targets w n S call [] := by
  intro _ ts seg p q h hp
  cases h with
  | nil =>
    obtain rfl : p = q := hp
    exact @Computes.pure code w _ n p List.reverse []

theorem arguments_computed_cons {e : Expr} {arguments : List Argument}
    (he : e.Computed code targets w n S call) (hrest : ArgumentsComputed code targets w n S call arguments) :
    ArgumentsComputed code targets w n S call (.value e :: arguments) := by
  intro hs ts seg p q h hp
  rw [argumentsSetFree, Argument.setFree, Bool.and_eq_true] at hs
  cases h with
  | cons ht hassign hcode hmore =>
    obtain ⟨m₂, hp, hplaced⟩ := placed_append.mp hp
    obtain ⟨m₁, hvalue, hconv⟩ := placed_append.mp hp
    rw [evalArguments, S.typeOf_eq ht, hassign.conversionTo]
    refine (he hs.1 hcode hvalue).bind fun v => (Computes.conversion hconv).bind fun v => ?_
    refine ((hrest hs.2 hmore hplaced).frame [v]).bind fun vs => ?_
    have hpure := @Computes.pure code w _ n q List.reverse (v :: vs)
    rw [List.reverse_cons] at hpure
    exact hpure

/-- There are as many values as types. -/
theorem evalArguments_length {ts : List DataType} {arguments : List Argument} {seg : List Line}
    {vs : List Value} {m m' : Memory} (h : ArgumentsCode S ts arguments seg)
    (hvs : evalArguments w S call ts arguments m = .ok vs m') : vs.length = ts.length := by
  induction arguments generalizing ts seg vs m m' with
  | nil =>
    cases h with
    | nil =>
      cases hvs
      rfl
  | cons a arguments ih =>
    cases h with
    | cons ht hassign hcode hmore =>
      rw [evalArguments] at hvs
      simp only [EStateM.bind_eq_ok] at hvs
      obtain ⟨_, _, _, _, _, _, us, m₁, hus, hpure⟩ := hvs
      cases hpure
      rw [List.length_cons, List.length_cons, ih hmore hus]

/-! ## calls -/

theorem Computes.builtin {b : Builtin} {vs : List Value} {p q : Nat} (hb : b.isFunction = true)
    (hvs : vs.length = b.parameters.length) (hp : Placed code targets p (emitBasic b.epilogue) q) :
    Computes code w n p q vs.reverse (Eval.lift (b.apply vs)) fun v => [v] := by
  cases b with
  | length =>
    obtain ⟨v, rfl⟩ := List.length_eq_one_iff.mp hvs
    exact .unary rfl hp
  | charat =>
    match vs, hvs with
    | [text, index], _ => exact .binary rfl hp
  | _ => cases hb

theorem call_computed (hcalls : CallsComputed code targets w n S call) {name : String}
    {arguments : List Argument} (ha : ArgumentsComputed code targets w n S call arguments) :
    (Expr.call name arguments).Computed code targets w n S call := by
  intro hs seg p q h hp
  rw [Expr.setFree] at hs
  rw [Expr.eval]
  refine Computes.typed _ ?_
  cases h with
  | builtin hb hfun hcode =>
    obtain ⟨m, hplaced, hepilogue⟩ := placed_append.mp hp
    simp only [hb]
    refine (ha hs hcode hplaced).bind_of_ok fun vs ⟨_, _, hvs⟩ => ?_
    exact .builtin hfun (evalArguments_length hcode hvs) hepilogue
  | call hb hf hcode =>
    obtain ⟨m, hplaced, hcall⟩ := placed_append.mp hp
    simp only [hb, hf.function]
    refine (ha hs hcode hplaced).bind_of_ok fun vs ⟨_, _, hvs⟩ => ?_
    exact hcalls name _ hf vs (evalArguments_length hcode hvs) m q hcall

/-! ## all expressions -/

mutual

/-- The code of an expression leaves its value on the stack. -/
theorem Expr.computes (hslots : S.SlotsFit) (hcalls : CallsComputed code targets w n S call) :
    (e : Expr) → e.Computed code targets w n S call
  | .access a => access_computed (Access.computes hslots hcalls a)
  | .call _ arguments => call_computed hcalls (arguments_compute hslots hcalls arguments)
  | .binary _ left right =>
    binary_computed (Expr.computes hslots hcalls left) (Expr.computes hslots hcalls right)
  | .signed _ operand => signed_computed (Expr.computes hslots hcalls operand)
  | .power base _ => power_computed (Expr.computes hslots hcalls base)
  | .not operand => not_computed (Expr.computes hslots hcalls operand)
  | .constant c => constant_computed c
  | .set members => set_computed members

theorem Access.computes (hslots : S.SlotsFit) (hcalls : CallsComputed code targets w n S call) :
    (a : Access) → a.Computed code targets w n S call
  | .name id => name_computed hslots hcalls id
  | .index (.name _) [i] => index_computed hslots (Expr.computes hslots hcalls i)
  | .index (.name _) [] => fun _ _ _ _ h => nomatch h
  | .index (.name _) (_ :: _ :: _) => fun _ _ _ _ h => nomatch h
  | .index (.index _ _) _ => fun _ _ _ _ h => nomatch h
  | .index (.field _ _) _ => fun _ _ _ _ h => nomatch h
  | .index (.deref _) _ => fun _ _ _ _ h => nomatch h
  | .field _ _ => fun _ _ _ _ h => nomatch h
  | .deref _ => fun _ _ _ _ h => nomatch h

theorem arguments_compute (hslots : S.SlotsFit) (hcalls : CallsComputed code targets w n S call) :
    (arguments : List Argument) → ArgumentsComputed code targets w n S call arguments
  | [] => arguments_computed_nil
  | .value e :: arguments =>
    arguments_computed_cons (Expr.computes hslots hcalls e) (arguments_compute hslots hcalls arguments)
  | .wide _ _ :: _ => fun _ _ _ _ _ h => nomatch h
  | .precise _ _ _ :: _ => fun _ _ _ _ _ h => nomatch h

end

end

end PascalStack
