import PascalStack.Proofs.Simulation.Expressions

/-!
# Code of statements follows their evaluation

* `Computes.jz`, `Computes.jump`, `Computes.turns`   branches and loops;
* `assign_computes`, `read_computes`, `writes_compute`, ...   statements without parts;
* `Stmt.computes`, `stmts_compute`   the code of statements leaves the stack as it was.
-/

namespace PascalStack

section
variable {code : Code} {targets : String → Option Nat} {w : Watch} {n p q : Nat} {α : Type}
  {before : List Value} {x y : Eval α} {after : α → List Value}

/-! ## branches and loops -/

theorem Computes.mono {n' : Nat} (h : Computes code w n p q before x after) (hn : n' ≤ n) :
    Computes code w n' p q before x after :=
  fun s rest hs => (h s rest hs).mono hn fun _ _ _ h => h

/-- An instruction that only goes somewhere comes before some code. -/
theorem Computes.prepend {o : Op Nat} {m : Nat} {before' : List Value} (hcode : code[p]? = some (.ok o))
    (hq : o.isQuiet = true) (hdoes : o.Does p m before (Pure.pure ()) fun _ => before')
    (h : Computes code w n m q before' x after) : Computes code w (n + 1) p q before x after := by
  intro s rest hs
  obtain ⟨t, hexec, hstack, hcalls, hmem⟩ := hdoes s rest hs
  have hstep : Steps code w 1 p s m t := .step (.of_quiet hcode hq) (step_of_ok hcode hexec) (.refl m t)
  have hrest := h t rest hstack
  rw [hmem, hcalls] at hrest
  exact hrest.prepend hstep

theorem Computes.jump {label : String} {m r : Nat} (hp : Placed code targets p (emit [.jump label]) m)
    (ht : targets label = some r) (h : Computes code w n r q before x after) :
    Computes code w (n + 1) p q before x after := by
  obtain ⟨hop, rfl⟩ := hp.single
  obtain ⟨o, ho, hcode⟩ := hop rfl
  rw [Op.resolve?, ht] at ho
  cases ho
  exact .prepend hcode rfl does_jump h

theorem Computes.jz {label : String} {m r : Nat} {v : Value}
    (hp : Placed code targets p (emit [.jz label]) m) (ht : targets label = some r)
    (hx : Computes code w n m q [] x after) (hy : Computes code w n r q [] y after) :
    Computes code w (n + 1) p q [v] (if v.isTrue then x else y) after := by
  obtain ⟨hop, rfl⟩ := hp.single
  obtain ⟨o, ho, hcode⟩ := hop rfl
  rw [Op.resolve?, ht] at ho
  cases ho
  refine .prepend hcode rfl does_jz ?_
  cases hv : v.isTrue with
  | true => exact hx
  | false => exact hy

/-- A loop: a test, a branch out of the loop, a body and a jump back. -/
theorem Computes.turns {test : Eval Value} {body : Eval Unit} {out back : String} {a b c d : Nat}
    (hback : targets back = some p) (hout : targets out = some q)
    (htest : Computes code w n p a [] test fun v => [v])
    (hbranch : Placed code targets a (emit [.jz out]) b)
    (hbody : Computes code w n b c [] body fun _ => [])
    (hjump : Placed code targets c (emit [.jump back]) d) {i : Nat} (hi : i ≤ n) :
    Computes code w i p q [] (PascalStack.turns (test >>= fun v => Pure.pure v.isTrue) body i)
      fun _ => [] := by
  induction i with
  | zero => exact fun s _ _ => ⟨0, p, s, Nat.le_refl 0, .refl p s⟩
  | succ i ih =>
    rw [PascalStack.turns, bind_assoc]
    refine (htest.mono hi).bind fun v => ?_
    rw [pure_bind]
    have hturn : Computes code w i b q [] (body >>= fun _ =>
        PascalStack.turns (test >>= fun v => Pure.pure v.isTrue) body i) fun _ => [] :=
      (hbody.mono (Nat.le_of_succ_le hi)).bind fun _ =>
        (Computes.jump hjump hback (ih (Nat.le_of_succ_le hi))).mono (Nat.le_succ i)
    exact .jz hbranch hout hturn (@Computes.pure code w _ i q (fun _ => []) ())

end

/-! ## statements without parts -/

structure Context.SlotsFit (x : Context) : Prop where
  declared : x.scopes.SlotsFit
  result : ∀ a, x.activation = some a → a.slot < wordSize

section
variable {code : Code} {targets : String → Option Nat} {w : Watch} {n p q : Nat} {x : Context}
  {call : String → List Value → Eval Value}

theorem Context.SlotsFit.target (h : x.SlotsFit) {id : String} {slot : Nat} {t : DataType}
    (ht : x.Targets id slot t) : slot < wordSize := by
  cases ht with
  | result ha _ => exact h.result _ ha
  | declared _ hr => exact h.declared _ _ hr

theorem Context.variableOf_eq {id : String} {v : Variable} (h : x.scopes.resolve? id = some v) :
    x.variableOf id = v := by
  unfold Context.variableOf
  rw [h]
  rfl

variable (hslots : x.SlotsFit) (hcalls : CallsComputed code targets w n x.scopes call)
include hslots hcalls

theorem assign_computes {target : Access} {value : Expr} {seg : List Line}
    (ht : target.setFree = true) (hs : value.setFree = true) (h : AssignCode x target value seg) (hp : Placed code targets p seg q) :
    Computes code w n p q [] (value.eval w x.scopes call >>= fun v =>
      storeValue w x call target (x.scopes.typeOf value) v) fun _ => [] := by
  cases h with
  | name hu hcode htarget hassign =>
    obtain ⟨m₂, hp, hstore⟩ := placed_append.mp hp
    obtain ⟨m₁, hvalue, hconv⟩ := placed_append.mp hp
    refine (Expr.computes hslots.declared hcalls value hs hcode hvalue).bind fun v => ?_
    rw [storeValue, htarget.target, x.scopes.typeOf_eq hu, hassign.conversionTo]
    exact (Computes.conversion hconv).bind fun v => .store (hslots.target htarget) hstore
  | @element _ _ i _ _ _ _ _ hu hcode hr harray hassign _ hindex =>
    simp only [Access.setFree, exprsSetFree, Bool.and_true, Bool.true_and] at ht
    obtain ⟨m₄, hp, hstore⟩ := placed_append.mp hp
    obtain ⟨m₂, hp, haddress⟩ := placed_append.mp hp
    obtain ⟨m₁, hvalue, hconv⟩ := placed_append.mp hp
    obtain ⟨m₃, hplaced, haddress⟩ := placed_append.mp haddress
    refine (Expr.computes hslots.declared hcalls value hs hcode hvalue).bind fun v => ?_
    rw [storeValue, Context.variableOf_eq hr, x.scopes.typeOf_eq hu, hassign.conversionTo]
    refine (Computes.conversion hconv).bind fun v => ?_
    refine ((Expr.computes hslots.declared hcalls i ht hindex hplaced).frame [v]).bind fun index => ?_
    exact (Computes.note _).bind fun _ => .storeElement (placed_append.mpr ⟨m₄, haddress, hstore⟩)

end

section
variable {code : Code} {targets : String → Option Nat} {w : Watch} {n p q : Nat}

theorem conversionTo_self (t : DataType) : conversionTo t t = none := by
  cases t <;> rfl

theorem Computes.readLine (hp : Placed code targets p (emitBasic [.read]) q) :
    Computes code w n p q [] Eval.readLine fun v => [v] := by
  obtain ⟨hop, rfl⟩ := hp.basic
  exact .of_quiet hop rfl does_read

theorem Computes.reading {t : DataType} {ops : List (Op String)} {line : Value} (ht : t.read? = some ops)
    (hp : Placed code targets p (emit ops) q) :
    Computes code w n p q [line] (Eval.lift (t.reading line)) fun v => [v] := by
  cases t with
  | integer => cases ht; exact .unary rfl hp
  | boolean => cases ht; exact .unary rfl hp
  | real => cases ht; exact .unary rfl hp
  | string => cases ht; cases hp; exact .value line
  | char =>
    cases ht
    obtain ⟨m, hzero, hchar⟩ := hp.uncons
    exact .push rfl rfl rfl (fun _ => rfl) hzero (.binary rfl hchar)
  | array => cases ht

theorem Computes.writing {t : DataType} {b : Basic} {v : Value} (ht : t.write? = some b)
    (hp : Placed code targets p (emitBasic [b]) q) :
    Computes code w n p q [v] (Eval.lift (t.writing v) >>= Eval.write) fun _ => [] := by
  obtain ⟨hop, rfl⟩ := hp.basic
  cases t with
  | array => cases ht
  | _ => cases ht; exact .of_quiet hop rfl (does_written rfl)

theorem Computes.drop {v : Value} (hp : Placed code targets p (emit [.pop 1]) q) :
    Computes code w n p q [v] (Pure.pure ()) fun _ => [] := by
  obtain ⟨hop, rfl⟩ := hp.single
  obtain ⟨o, ho, hcode⟩ := hop (by decide)
  cases ho
  exact .of_quiet hcode rfl does_pop

end

section
variable {code : Code} {targets : String → Option Nat} {w : Watch} {n p q : Nat} {x : Context}
  {call : String → List Value → Eval Value}
variable (hslots : x.SlotsFit) (hcalls : CallsComputed code targets w n x.scopes call)
include hslots hcalls

theorem read_computes {target : Access} {seg : List Line} (hs : target.setFree = true)
    (h : ReadCode x target seg) (hp : Placed code targets p seg q) :
    Computes code w n p q [] (Eval.readLine >>= fun line =>
      Eval.lift ((x.targetType target).reading line) >>= fun v =>
        storeValue w x call target (x.targetType target) v) fun _ => [] := by
  cases h with
  | name htarget hops =>
    obtain ⟨m₂, hp, hstore⟩ := placed_append.mp hp
    obtain ⟨m₁, hread, hconv⟩ := placed_append.mp hp
    refine (Computes.readLine hread).bind fun line => ?_
    rw [Context.targetType, htarget.target]
    refine (Computes.reading hops hconv).bind fun v => ?_
    rw [storeValue, htarget.target, conversionTo_self]
    exact .store (hslots.target htarget) hstore
  | @element _ _ _ i _ hr harray hops _ hindex =>
    simp only [Access.setFree, exprsSetFree, Bool.and_true, Bool.true_and] at hs
    obtain ⟨m₄, hp, hstore⟩ := placed_append.mp hp
    obtain ⟨m₂, hp, haddress⟩ := placed_append.mp hp
    obtain ⟨m₁, hread, hconv⟩ := placed_append.mp hp
    obtain ⟨m₃, hplaced, haddress⟩ := placed_append.mp haddress
    refine (Computes.readLine hread).bind fun line => ?_
    rw [Context.targetType, Context.variableOf_eq hr]
    refine (Computes.reading hops hconv).bind fun v => ?_
    rw [storeValue, Context.variableOf_eq hr, conversionTo_self]
    refine ((Expr.computes hslots.declared hcalls i hs hindex hplaced).frame [v]).bind fun index => ?_
    exact (Computes.note _).bind fun _ => .storeElement (placed_append.mpr ⟨m₄, haddress, hstore⟩)

theorem writes_compute {arguments : List Argument} {seg : List Line}
    (hs : argumentsSetFree arguments = true) (h : WritesCode x arguments seg)
    (hp : Placed code targets p seg q) :
    Computes code w n p q [] (writeValues w x call arguments) fun _ => [] := by
  induction h generalizing p with
  | nil =>
    obtain rfl : p = q := hp
    exact @Computes.pure code w _ n p (fun _ => []) ()
  | cons ht hwrite hcode _ ih =>
    rw [argumentsSetFree, Bool.and_eq_true] at hs
    obtain ⟨m₂, hp, hrest⟩ := placed_append.mp hp
    obtain ⟨m₁, hvalue, hwritten⟩ := placed_append.mp hp
    rw [writeValues, x.scopes.typeOf_eq ht]
    refine (Expr.computes hslots.declared hcalls _ (Argument.expr_setFree hs.1) hcode hvalue).bind fun v => ?_
    rw [← bind_assoc]
    exact (Computes.writing hwrite hwritten).bind fun _ => ih hs.2 hrest

theorem call_computes {name : String} {arguments : List Argument} {seg : List Line}
    (hs : argumentsSetFree arguments = true) (h : CallCode x name arguments seg) (hp : Placed code targets p seg q) :
    Computes code w n p q [] (execCall w x call name arguments) fun _ => [] := by
  unfold execCall
  cases h with
  | write hb hwrite hcode =>
    obtain ⟨m, hplaced, hend⟩ := placed_append.mp hp
    have hwrites := writes_compute hslots hcalls hs hcode hplaced
    rcases hwrite with rfl | rfl
    · simp only [hb]
      obtain rfl : m = q := hend
      exact hwrites
    · simp only [hb]
      obtain ⟨hop, rfl⟩ := Placed.basic hend
      exact hwrites.bind fun _ => .of_quiet hop rfl does_writeln
  | skip hb hread =>
    obtain ⟨m, hline, hdrop⟩ := placed_append.mp hp
    rcases hread with rfl | rfl
    · simp only [hb]
      exact (Computes.readLine hline).bind fun line => .drop hdrop
    · simp only [hb]
      exact (Computes.readLine hline).bind fun line => .drop hdrop
  | read hb hread hcode =>
    rw [argumentsSetFree, Bool.and_eq_true, Argument.setFree, Expr.setFree] at hs
    rcases hread with rfl | rfl
    · simp only [hb]
      exact read_computes hslots hcalls hs.1 hcode hp
    · simp only [hb]
      exact read_computes hslots hcalls hs.1 hcode hp
  | function hb hcode =>
    obtain ⟨m, hplaced, hdrop⟩ := placed_append.mp hp
    have hcall := (Expr.computes hslots.declared hcalls (.call name arguments) (by rwa [Expr.setFree]) hcode hplaced).bind fun v =>
      Computes.drop hdrop
    cases hname : Builtin.ofName? name with
    | none => exact hcall
    | some b =>
      have hfun := hb b hname
      cases b with
      | length => exact hcall
      | charat => exact hcall
      | _ => cases hfun

end

/-! ## all statements -/

section
variable (code : Code) (targets : String → Option Nat) (w : Watch) (n : Nat) (x : Context)
  (call : String → List Value → Eval Value)

def Stmt.Computed (s : Stmt) : Prop :=
  s.setFree = true → ∀ {k seg k' p q}, StmtCode x k s seg k' → Placed code targets p seg q →
    Computes code w n p q [] (s.exec w x call n) fun _ => []

def StmtsComputed (ss : List Stmt) : Prop :=
  stmtsSetFree ss = true → ∀ {k seg k' p q}, StmtsCode x k ss seg k' → Placed code targets p seg q →
    Computes code w n p q [] (execAll w x call n ss) fun _ => []

end

section
variable {code : Code} {targets : String → Option Nat} {w : Watch} {n : Nat} {x : Context}
  {call : String → List Value → Eval Value}

theorem compound_computed {body : List Stmt} (hb : StmtsComputed code targets w n x call body) :
    (Stmt.compound body).Computed code targets w n x call := by
  intro hs k seg k' p q h hp
  rw [Stmt.setFree] at hs
  cases h with
  | compound hcode =>
    rw [Stmt.exec]
    exact hb hs hcode hp

theorem stmts_computed_nil : StmtsComputed code targets w n x call [] := by
  intro _ k seg k' p q h hp
  cases h with
  | nil =>
    obtain rfl : p = q := hp
    rw [execAll]
    exact @Computes.pure code w _ n p (fun _ => []) ()

theorem stmts_computed_cons {s : Stmt} {ss : List Stmt} (hs : s.Computed code targets w n x call)
    (hss : StmtsComputed code targets w n x call ss) : StmtsComputed code targets w n x call (s :: ss) := by
  intro hfree k seg k' p q h hp
  rw [stmtsSetFree, Bool.and_eq_true] at hfree
  cases h with
  | cons hfirst hrest =>
    obtain ⟨m, hplaced, hmore⟩ := placed_append.mp hp
    rw [execAll]
    exact (hs hfree.1 hfirst hplaced).bind fun _ => hss hfree.2 hrest hmore

variable (hslots : x.SlotsFit) (hcalls : CallsComputed code targets w n x.scopes call)
include hslots hcalls

theorem ifThen_computed {c : Expr} {thenBranch : Stmt}
    (ht : thenBranch.Computed code targets w n x call) :
    (Stmt.ifThen c thenBranch).Computed code targets w n x call := by
  intro hs k seg k' p q h hp
  rw [Stmt.setFree, Bool.and_eq_true] at hs
  cases h with
  | ifThen _ hcode hthen =>
    obtain ⟨m₃, hp, hend⟩ := placed_append.mp hp
    obtain ⟨m₂, hp, hplaced⟩ := placed_append.mp hp
    obtain ⟨m₁, hcond, hjz⟩ := placed_append.mp hp
    obtain ⟨htarget, rfl⟩ := hend.label
    rw [Stmt.exec]
    refine (Expr.computes hslots.declared hcalls c hs.1 hcode hcond).bind fun v => ?_
    exact (Computes.jz hjz htarget (ht hs.2 hthen hplaced) (@Computes.pure code w _ n q (fun _ => []) ())).mono
      (Nat.le_succ n)

theorem ifThenElse_computed {c : Expr} {thenBranch elseBranch : Stmt}
    (ht : thenBranch.Computed code targets w n x call)
    (he : elseBranch.Computed code targets w n x call) :
    (Stmt.ifThenElse c thenBranch elseBranch).Computed code targets w n x call := by
  intro hs k seg k' p q h hp
  rw [Stmt.setFree, Bool.and_eq_true, Bool.and_eq_true] at hs
  cases h with
  | ifThenElse _ hcode hthen helse =>
    obtain ⟨m₆, hp, hend⟩ := placed_append.mp hp
    obtain ⟨m₅, hp, helsePlaced⟩ := placed_append.mp hp
    obtain ⟨m₄, hp, helseLabel⟩ := placed_append.mp hp
    obtain ⟨m₃, hp, hjump⟩ := placed_append.mp hp
    obtain ⟨m₂, hp, hthenPlaced⟩ := placed_append.mp hp
    obtain ⟨m₁, hcond, hjz⟩ := placed_append.mp hp
    obtain ⟨hendTarget, rfl⟩ := hend.label
    obtain ⟨helseTarget, rfl⟩ := helseLabel.label
    rw [Stmt.exec]
    refine (Expr.computes hslots.declared hcalls c hs.1.1 hcode hcond).bind fun v => ?_
    have hskip : Computes code w (n + 1) m₃ q [] (pure ()) fun _ => [] :=
      .jump hjump hendTarget (@Computes.pure code w _ n q (fun _ => []) ())
    have hbranch := (ht hs.1.2 hthen hthenPlaced).bind fun _ => hskip.mono (Nat.le_succ n)
    rw [bind_pure_unit] at hbranch
    exact (Computes.jz hjz helseTarget hbranch (he hs.2 helse helsePlaced)).mono (Nat.le_succ n)

theorem whileDo_computed {c : Expr} {body : Stmt} (hb : body.Computed code targets w n x call) :
    (Stmt.whileDo c body).Computed code targets w n x call := by
  intro hs k seg k' p q h hp
  rw [Stmt.setFree, Bool.and_eq_true] at hs
  cases h with
  | whileDo _ hcode hbody =>
    obtain ⟨m₅, hp, hend⟩ := placed_append.mp hp
    obtain ⟨m₄, hp, hjump⟩ := placed_append.mp hp
    obtain ⟨m₃, hp, hplaced⟩ := placed_append.mp hp
    obtain ⟨m₂, hp, hjz⟩ := placed_append.mp hp
    obtain ⟨m₁, hstart, hcond⟩ := placed_append.mp hp
    obtain ⟨hout, rfl⟩ := hend.label
    obtain ⟨hback, rfl⟩ := hstart.label
    rw [Stmt.exec]
    exact .turns hback hout (Expr.computes hslots.declared hcalls c hs.1 hcode hcond) hjz (hb hs.2 hbody hplaced)
      hjump (Nat.le_refl n)

theorem forDo_computed {control : String} {initial final : Expr} {direction : Direction} {body : Stmt}
    (hb : body.Computed code targets w n x call) :
    (Stmt.forDo control initial direction final body).Computed code targets w n x call := by
  intro hs k seg k' p q h hp
  rw [Stmt.setFree, Bool.and_eq_true, Bool.and_eq_true] at hs
  cases h with
  | @forDo _ _ _ v _ _ _ _ _ _ _ hr _ _ _ hinitial hfinal hbody =>
    obtain ⟨m₈, hp, hend⟩ := placed_append.mp hp
    obtain ⟨m₇, hp, hnext⟩ := placed_append.mp hp
    obtain ⟨m₆, hp, hplaced⟩ := placed_append.mp hp
    obtain ⟨m₅, hp, htest⟩ := placed_append.mp hp
    obtain ⟨m₄, hp, hlast⟩ := placed_append.mp hp
    obtain ⟨m₃, hp, hcurrent⟩ := placed_append.mp hp
    obtain ⟨m₂, hp, hstart⟩ := placed_append.mp hp
    obtain ⟨m₁, hfirst, hstore⟩ := placed_append.mp hp
    obtain ⟨hout, rfl⟩ := hend.label
    obtain ⟨hback, rfl⟩ := hstart.label
    obtain ⟨t₁, horder, hjz⟩ := htest.uncons
    obtain ⟨b₁, hload, hnext⟩ := hnext.uncons
    obtain ⟨b₂, hone, hnext⟩ := hnext.uncons
    obtain ⟨b₃, hstep, hnext⟩ := hnext.uncons
    obtain ⟨b₄, hstored, hjump⟩ := hnext.uncons
    have hslot : v.slot < wordSize := hslots.declared _ _ hr
    rw [Stmt.exec, Context.variableOf_eq hr]
    refine (Expr.computes hslots.declared hcalls initial hs.1.1 hinitial hfirst).bind fun first => ?_
    refine (Computes.store hslot hstore).bind fun _ => ?_
    have htest : Computes code w n m₃ t₁ [] (Eval.loadSlot w v.slot >>= fun current =>
        final.eval w x.scopes call >>= fun last =>
          Eval.lift ((Basic.order direction.test).binary current last)) fun u => [u] :=
      (Computes.load hslot hcurrent).bind fun current =>
        ((Expr.computes hslots.declared hcalls final hs.1.2 hfinal hlast).frame [current]).bind fun last =>
          .binary rfl horder
    have hturn : Computes code w n m₆ b₄ [] (body.exec w x call n >>= fun _ =>
        Eval.loadSlot w v.slot >>= fun current =>
          Eval.lift ((Basic.arith direction.step).binary current (.integer 1)) >>= fun next =>
            Eval.storeSlot v.slot next) fun _ => [] :=
      (hb hs.2 hbody hplaced).bind fun _ => (Computes.load hslot hload).bind fun current =>
        .push rfl rfl rfl (fun _ => rfl) hone
          ((Computes.binary rfl hstep).bind fun next => .store hslot hstored)
    have hloop := Computes.turns hback hout htest hjz hturn hjump (Nat.le_refl n)
    simp only [bind_assoc] at hloop
    exact hloop

theorem stmt_call_computed {name : String} {arguments : List Argument} :
    (Stmt.call name arguments).Computed code targets w n x call := by
  intro hs k seg k' p q h hp
  rw [Stmt.setFree] at hs
  cases h with
  | call hcode =>
    rw [Stmt.exec]
    exact call_computes hslots hcalls hs hcode hp

theorem assign_computed {target : Access} {value : Expr} :
    (Stmt.assign target value).Computed code targets w n x call := by
  intro hs k seg k' p q h hp
  rw [Stmt.setFree, Bool.and_eq_true] at hs
  cases h with
  | assign hcode =>
    rw [Stmt.exec]
    exact assign_computes hslots hcalls hs.1 hs.2 hcode hp

end

section
variable {code : Code} {targets : String → Option Nat} {w : Watch} {n : Nat} {x : Context}
  {call : String → List Value → Eval Value}

mutual

/-- The code of a statement leaves the stack as it was. -/
theorem Stmt.computes (hslots : x.SlotsFit) (hcalls : CallsComputed code targets w n x.scopes call) :
    (s : Stmt) → s.Computed code targets w n x call
  | .compound body => compound_computed (stmts_compute hslots hcalls body)
  | .assign _ _ => assign_computed hslots hcalls
  | .ifThen _ thenBranch => ifThen_computed hslots hcalls (Stmt.computes hslots hcalls thenBranch)
  | .ifThenElse _ thenBranch elseBranch =>
    ifThenElse_computed hslots hcalls (Stmt.computes hslots hcalls thenBranch)
      (Stmt.computes hslots hcalls elseBranch)
  | .whileDo _ body => whileDo_computed hslots hcalls (Stmt.computes hslots hcalls body)
  | .forDo _ _ _ _ body => forDo_computed hslots hcalls (Stmt.computes hslots hcalls body)
  | .call _ _ => stmt_call_computed hslots hcalls

theorem stmts_compute (hslots : x.SlotsFit) (hcalls : CallsComputed code targets w n x.scopes call) :
    (ss : List Stmt) → StmtsComputed code targets w n x call ss
  | [] => stmts_computed_nil
  | s :: ss => stmts_computed_cons (Stmt.computes hslots hcalls s) (stmts_compute hslots hcalls ss)

end

end

end PascalStack
