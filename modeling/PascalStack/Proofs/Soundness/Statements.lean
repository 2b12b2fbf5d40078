import PascalStack.Proofs.Compiler.Labels
import PascalStack.Proofs.Soundness.Expressions

/-!
# Code of statements keeps to types

* `Setting.Hosts`   what is asked of the variables in sight of statements;
* `Pass`            code from one position to another with nothing on the stack;
* `LabelsIn`        the labels of code stand at positions of a set;
* `Flows`           such code, from its start and from each of its labels;
* `Stmt.flows`      the code of a statement keeps to types.
-/

namespace PascalStack

/-- What is asked of the variables in sight of statements, if the slots of `F` have been written. -/
structure Setting.Hosts (W : Setting) (targets : String → Option Nat) (x : Context) (F : Nat → Prop) : Prop where
  admits : W.Admits targets x.scopes
  result : ∀ {a}, x.activation = some a → W.Has a.slot a.result
  supplies : ∀ lines, W.Supplies F x.scopes lines

/-- Code from one position to another with nothing on the stack. -/
abbrev Pass (W : Setting) (J F : Nat → Prop) (p q : Nat) : Prop := Path W J F p F [] q F []

section
variable {W : Setting} {targets : String → Option Nat} {J F R : Nat → Prop} {Γ : List Kind} {p q : Nat}

/-! ## values that are kept, read and written -/

theorem Setting.Hosts.target {x : Context} {id : String} {slot : Nat} {t : DataType} (hW : W.Hosts targets x F)
    (h : x.Targets id slot t) (ht : t ≠ .array) : W.Has slot t := by
  cases h with
  | result ha _ => exact hW.result ha
  | declared _ hr => exact hW.admits.slot hr ht

theorem Path.forget {R' R₁ : Nat → Prop} {Γ' : List Kind} (h : Path W J F p R Γ q R' Γ')
    (hR : ∀ n, R₁ n → R' n) : Path W J F p R Γ q R₁ Γ' := h.trans (.weaken hR .refl)

theorem Path.keep {t : DataType} {slot : Nat} (h : W.Has slot t)
    (hp : Placed W.code targets p (emit [.storeg (some slot)]) q) :
    Path W J F p R (t.Holds :: Γ) q R Γ := (Path.store h hp).forget fun _ hn => .inr hn

theorem Path.readLine (hp : Placed W.code targets p (emitBasic [.read]) q) :
    Path W J F p R Γ q R (DataType.string.Holds :: Γ) := by
  obtain ⟨hop, rfl⟩ := hp.basic
  exact .one hop .read

theorem Path.reading {t : DataType} {ops : List (Op String)} (ht : t.read? = some ops)
    (hp : Placed W.code targets p (emit ops) q) :
    Path W J F p R (DataType.string.Holds :: Γ) q R (t.Holds :: Γ) := by
  cases t with
  | integer =>
    cases ht
    refine .unary rfl hp fun v hv => (atoi_holds hv).mono ?_
    rintro _ ⟨n, rfl⟩
    exact .integer n
  | boolean =>
    cases ht
    refine .unary rfl hp fun v hv => (atoi_holds hv).mono ?_
    rintro _ ⟨n, rfl⟩
    exact .boolean n
  | real =>
    cases ht
    exact .unary rfl hp fun v => atof_holds
  | string =>
    cases ht
    cases hp
    exact .refl
  | char =>
    cases ht
    obtain ⟨m, hzero, hchar⟩ := hp.uncons
    have hpush : Path W J F p R (DataType.string.Holds :: Γ) m R
        (DataType.integer.Holds :: DataType.string.Holds :: Γ) := .push rfl rfl rfl (.integer 0) hzero
    exact hpush.trans (.binary rfl hchar fun l r => charat_holds)
  | array => cases ht

theorem DataType.read?_ne_array {t : DataType} {ops : List (Op String)} (h : t.read? = some ops) : t ≠ .array := by
  rintro rfl
  cases h

theorem Assignable.ne_array {t u : DataType} {c : Option Conversion} (h : Assignable t u c) : t ≠ .array := by
  cases h with
  | same ht => exact ht
  | widen => nofun
  | narrow => nofun

theorem Path.writing {t : DataType} {b : Basic} (ht : t.write? = some b)
    (hp : Placed W.code targets p (emitBasic [b]) q) : Path W J F p R (t.Holds :: Γ) q R Γ := by
  obtain ⟨hop, rfl⟩ := hp.basic
  have hb : b.isWriting = true := by cases t <;> cases ht <;> rfl
  exact .one hop (.write hb fun v hv => written_holds hv ht)

theorem Path.discard {K : Kind} (hp : Placed W.code targets p (emit [.pop 1]) q) :
    Path W J F p R (K :: Γ) q R Γ := by
  obtain ⟨hop, rfl⟩ := hp.single
  obtain ⟨o, ho, hcode⟩ := hop (by decide)
  cases ho
  exact .one hcode .drop

/-! ## statements without labels -/

variable {x : Context}

theorem Setting.Hosts.expr (hW : W.Hosts targets x F) {e : Expr} {t : DataType} {lines : List Line}
    (hs : e.setFree = true) (h : ExprCode x.scopes e lines) (ht : x.scopes.infer e = .ok t)
    (hp : Placed W.code targets p lines q) : Path W J F p F Γ q F (t.Holds :: Γ) :=
  Expr.keeps hW.admits e hs h ht hp (hW.supplies lines)

theorem assign_passes (hW : W.Hosts targets x F) {target : Access} {value : Expr} {lines : List Line}
    (htarget : target.setFree = true) (hvalue : value.setFree = true) (h : AssignCode x target value lines)
    (hp : Placed W.code targets p lines q) : Pass W J F p q := by
  cases h with
  | name ht hcode hslot hassign =>
    obtain ⟨m₂, hp, hstore⟩ := placed_append.mp hp
    obtain ⟨m₁, hplaced, hconv⟩ := placed_append.mp hp
    refine (hW.expr hvalue hcode ht hplaced).trans ((Path.assignable hassign hconv).trans ?_)
    exact .keep (hW.target hslot hassign.ne_array) hstore
  | element ht hcode hr hv hassign hti hindex =>
    simp only [Access.setFree, exprsSetFree, Bool.and_true, Bool.true_and] at htarget
    obtain ⟨m₄, hp, hstore⟩ := placed_append.mp hp
    obtain ⟨m₂, hp, hplace⟩ := placed_append.mp hp
    obtain ⟨m₁, hplaced, hconv⟩ := placed_append.mp hp
    obtain ⟨m₃, hplaced', haddress⟩ := placed_append.mp hplace
    refine (hW.expr hvalue hcode ht hplaced).trans ((Path.assignable hassign hconv).trans ?_)
    refine (hW.expr htarget hindex hti hplaced').trans ?_
    exact .storeElement hW.admits hr hv (placed_append.mpr ⟨m₄, haddress, hstore⟩)

theorem read_passes (hW : W.Hosts targets x F) {target : Access} {lines : List Line}
    (hs : target.setFree = true) (h : ReadCode x target lines) (hp : Placed W.code targets p lines q) :
    Pass W J F p q := by
  cases h with
  | name hslot hops =>
    obtain ⟨m₂, hp, hstore⟩ := placed_append.mp hp
    obtain ⟨m₁, hread, hconv⟩ := placed_append.mp hp
    refine (Path.readLine hread).trans ((Path.reading hops hconv).trans ?_)
    exact .keep (hW.target hslot (DataType.read?_ne_array hops)) hstore
  | element hr hv hops hti hindex =>
    simp only [Access.setFree, exprsSetFree, Bool.and_true, Bool.true_and] at hs
    obtain ⟨m₄, hp, hstore⟩ := placed_append.mp hp
    obtain ⟨m₂, hp, hplace⟩ := placed_append.mp hp
    obtain ⟨m₁, hread, hconv⟩ := placed_append.mp hp
    obtain ⟨m₃, hplaced, haddress⟩ := placed_append.mp hplace
    refine (Path.readLine hread).trans ((Path.reading hops hconv).trans ?_)
    refine (hW.expr hs hindex hti hplaced).trans ?_
    exact .storeElement hW.admits hr hv (placed_append.mpr ⟨m₄, haddress, hstore⟩)

theorem writes_pass (hW : W.Hosts targets x F) {arguments : List Argument} {lines : List Line}
    (hs : argumentsSetFree arguments = true) (h : WritesCode x arguments lines)
    (hp : Placed W.code targets p lines q) : Pass W J F p q := by
  induction h generalizing p with
  | nil =>
    cases hp
    exact .refl
  | cons ht hwrite hcode _ ih =>
    rw [argumentsSetFree, Bool.and_eq_true] at hs
    obtain ⟨m₂, hp, hrest⟩ := placed_append.mp hp
    obtain ⟨m₁, hplaced, hwritten⟩ := placed_append.mp hp
    refine (hW.expr (Argument.expr_setFree hs.1) hcode ht hplaced).trans ?_
    exact (Path.writing hwrite hwritten).trans (ih hs.2 hrest)

/-- A call has a type. -/
theorem ExprCode.infer_call {S : Scopes} {name : String} {arguments : List Argument} {lines : List Line}
    (h : ExprCode S (.call name arguments) lines) : ∃ t, S.infer (.call name arguments) = .ok t := by
  rw [Scopes.infer, Scopes.callType]
  cases h with
  | builtin hb hfun _ =>
    obtain ⟨t, ht⟩ := Option.isSome_iff_exists.mp hfun
    exact ⟨t, by simp only [hb, ht]⟩
  | @call _ _ f _ hb hf _ => exact ⟨f.result, by simp only [hb, hf.function]⟩

theorem call_passes (hW : W.Hosts targets x F) {name : String} {arguments : List Argument} {lines : List Line}
    (hs : argumentsSetFree arguments = true) (h : CallCode x name arguments lines)
    (hp : Placed W.code targets p lines q) : Pass W J F p q := by
  cases h with
  | write _ hb hcode =>
    obtain ⟨m, hplaced, hepilogue⟩ := placed_append.mp hp
    refine (writes_pass hW hs hcode hplaced).trans ?_
    rcases hb with rfl | rfl
    · cases hepilogue
      exact .refl
    · obtain ⟨hop, rfl⟩ := Placed.basic hepilogue
      exact .one hop .newline
  | skip _ _ =>
    obtain ⟨m, hread, hpop⟩ := placed_append.mp hp
    exact (Path.readLine hread).trans (.discard hpop)
  | read _ _ hcode =>
    rw [argumentsSetFree, Argument.setFree, Expr.setFree, Bool.and_eq_true] at hs
    exact read_passes hW hs.1 hcode hp
  | function _ hcode =>
    obtain ⟨m, hplaced, hpop⟩ := placed_append.mp hp
    obtain ⟨t, ht⟩ := hcode.infer_call
    exact (hW.expr (by rwa [Expr.setFree]) hcode ht hplaced).trans (.discard hpop)

/-! ## labels -/

def LabelsIn (targets : String → Option Nat) (J : Nat → Prop) (lines : List Line) : Prop :=
  ∀ l ∈ labelsOf lines, ∀ pos, targets l = some pos → J pos

theorem LabelsIn.left {a b : List Line} (h : LabelsIn targets J (a ++ b)) : LabelsIn targets J a := by
  intro l hl
  refine h l ?_
  rw [labelsOf_append]
  exact List.mem_append_left _ hl

theorem LabelsIn.right {a b : List Line} (h : LabelsIn targets J (a ++ b)) : LabelsIn targets J b := by
  intro l hl
  refine h l ?_
  rw [labelsOf_append]
  exact List.mem_append_right _ hl

theorem LabelsIn.label {l : String} (h : LabelsIn targets J [.label l]) {pos : Nat} (hl : targets l = some pos) :
    J pos := h l (List.mem_singleton_self l) pos hl

theorem Path.jumpTo {l : String} (hp : Placed W.code targets p (emit [.jump l]) q)
    (hl : LabelsIn targets J [.label l]) : Pass W J F p q := by
  obtain ⟨hop, rfl⟩ := hp.single
  obtain ⟨o, ho, hcode⟩ := hop rfl
  obtain ⟨pos, hpos, rfl⟩ := Option.map_eq_some_iff.mp ho
  exact .jump hcode (hl.label hpos) fun _ hn => hn

theorem Path.branchTo {l : String} {K : Kind} (hp : Placed W.code targets p (emit [.jz l]) q)
    (hl : LabelsIn targets J [.label l]) : Path W J F p F [K] q F [] := by
  obtain ⟨hop, rfl⟩ := hp.single
  obtain ⟨o, ho, hcode⟩ := hop rfl
  obtain ⟨pos, hpos, rfl⟩ := Option.map_eq_some_iff.mp ho
  exact .branch hcode (hl.label hpos) (fun _ hn => hn) .refl

/-- Code that keeps to types from its start and from each of its labels up to its end. -/
structure Flows (W : Setting) (targets : String → Option Nat) (J F : Nat → Prop) (lines : List Line)
    (p q : Nat) : Prop where
  pass : Pass W J F p q
  labels : ∀ l ∈ labelsOf lines, ∀ pos, targets l = some pos → Pass W J F pos q

namespace Flows
variable {a b lines : List Line} {m : Nat}

theorem straight (h : Pass W J F p q) (hlabels : labelsOf lines = []) : Flows W targets J F lines p q := by
  refine ⟨h, fun l hl => ?_⟩
  rw [hlabels] at hl
  cases hl

theorem append (ha : Flows W targets J F a p m) (hb : Flows W targets J F b m q) :
    Flows W targets J F (a ++ b) p q := by
  refine ⟨ha.pass.trans hb.pass, fun l hl pos hpos => ?_⟩
  rw [labelsOf_append] at hl
  rcases List.mem_append.mp hl with hl | hl
  · exact (ha.labels l hl pos hpos).trans hb.pass
  · exact hb.labels l hl pos hpos

theorem label {name : String} (hp : Placed W.code targets p [.label name] q) :
    Flows W targets J F [.label name] p q := by
  obtain ⟨hname, rfl⟩ := hp.label
  refine ⟨.refl, fun l hl pos hpos => ?_⟩
  cases List.mem_singleton.mp hl
  cases hname.symm.trans hpos
  exact .refl

theorem emit {ops : List (Op String)} (h : Pass W J F p q) : Flows W targets J F (emit ops) p q :=
  .straight h (labelsOf_emit ops)

end Flows

theorem labelsOf_expr {S : Scopes} {e : Expr} {lines : List Line} (h : ExprCode S e lines) : labelsOf lines = [] :=
  (h.straight (T := fun _ => True) fun _ _ _ => trivial).labels

/-- A condition and the jump that depends on it. -/
theorem Flows.condition (hW : W.Hosts targets x F) {c : Expr} {l : String} {lines : List Line}
    (hs : c.setFree = true) (ht : x.scopes.IsCondition c) (h : ExprCode x.scopes c lines)
    (hp : Placed W.code targets p (lines ++ PascalStack.emit [.jz l]) q) (hl : LabelsIn targets J [.label l]) :
    Flows W targets J F (lines ++ PascalStack.emit [.jz l]) p q := by
  obtain ⟨t, ht, _⟩ := ht
  obtain ⟨m, hplaced, hjump⟩ := placed_append.mp hp
  refine .straight ((hW.expr hs h ht hplaced).trans (.branchTo hjump hl)) ?_
  rw [labelsOf_append, labelsOf_expr h, labelsOf_emit, List.nil_append]

end

/-! ## statements -/

section
variable (W : Setting) (targets : String → Option Nat) (x : Context) (J F : Nat → Prop)

def Stmt.Flowing (s : Stmt) : Prop :=
  s.setFree = true → ∀ {k k' lines p q}, StmtCode x k s lines k' → Placed W.code targets p lines q →
    LabelsIn targets J lines → Flows W targets J F lines p q

def StmtsFlowing (ss : List Stmt) : Prop :=
  stmtsSetFree ss = true → ∀ {k k' lines p q}, StmtsCode x k ss lines k' → Placed W.code targets p lines q →
    LabelsIn targets J lines → Flows W targets J F lines p q

end

section
variable {W : Setting} {targets : String → Option Nat} {x : Context} {J F : Nat → Prop}

theorem compound_flowing {body : List Stmt} (hb : StmtsFlowing W targets x J F body) :
    (Stmt.compound body).Flowing W targets x J F := by
  intro hs k k' lines p q h hp hl
  rw [Stmt.setFree] at hs
  cases h with
  | compound hcode => exact hb hs hcode hp hl

theorem assign_flowing (hW : W.Hosts targets x F) {target : Access} {value : Expr} :
    (Stmt.assign target value).Flowing W targets x J F := by
  intro hs k k' lines p q h hp _
  rw [Stmt.setFree, Bool.and_eq_true] at hs
  cases h with
  | assign hcode =>
    exact .straight (assign_passes hW hs.1 hs.2 hcode hp)
      (hcode.straight (T := fun _ => True) fun _ _ _ => trivial).labels

theorem stmt_call_flowing (hW : W.Hosts targets x F) {name : String} {arguments : List Argument} :
    (Stmt.call name arguments).Flowing W targets x J F := by
  intro hs k k' lines p q h hp _
  rw [Stmt.setFree] at hs
  cases h with
  | call hcode =>
    exact .straight (call_passes hW hs hcode hp)
      (hcode.straight (T := fun _ => True) fun _ _ _ => trivial).labels

theorem ifThen_flowing (hW : W.Hosts targets x F) {c : Expr} {thenBranch : Stmt}
    (hb : thenBranch.Flowing W targets x J F) : (Stmt.ifThen c thenBranch).Flowing W targets x J F := by
  intro hs k k' lines p q h hp hl
  rw [Stmt.setFree, Bool.and_eq_true] at hs
  cases h with
  | ifThen ht hcondition hthen =>
    obtain ⟨m₂, hp, hend⟩ := placed_append.mp hp
    obtain ⟨m₁, hcond, hbody⟩ := placed_append.mp hp
    exact ((Flows.condition hW hs.1 ht hcondition hcond hl.right).append (hb hs.2 hthen hbody hl.left.right)).append
      (.label hend)

theorem ifThenElse_flowing (hW : W.Hosts targets x F) {c : Expr} {thenBranch elseBranch : Stmt}
    (hb : thenBranch.Flowing W targets x J F) (he : elseBranch.Flowing W targets x J F) :
    (Stmt.ifThenElse c thenBranch elseBranch).Flowing W targets x J F := by
  intro hs k k' lines p q h hp hl
  rw [Stmt.setFree, Bool.and_eq_true, Bool.and_eq_true] at hs
  cases h with
  | ifThenElse ht hcondition hthen helse =>
    obtain ⟨m₅, hp, hend⟩ := placed_append.mp hp
    obtain ⟨m₄, hp, helse'⟩ := placed_append.mp hp
    obtain ⟨m₃, hp, hother⟩ := placed_append.mp hp
    obtain ⟨m₂, hp, hjump⟩ := placed_append.mp hp
    obtain ⟨m₁, hcond, hbody⟩ := placed_append.mp hp
    have hcond := Flows.condition hW hs.1.1 ht hcondition hcond hl.left.left.right
    have hthen := hb hs.1.2 hthen hbody hl.left.left.left.left.right
    have helse := he hs.2 helse helse' hl.left.right
    exact ((((hcond.append hthen).append (.emit (.jumpTo hjump hl.right))).append (.label hother)).append
      helse).append (.label hend)

theorem whileDo_flowing (hW : W.Hosts targets x F) {c : Expr} {body : Stmt} (hb : body.Flowing W targets x J F) :
    (Stmt.whileDo c body).Flowing W targets x J F := by
  intro hs k k' lines p q h hp hl
  rw [Stmt.setFree, Bool.and_eq_true] at hs
  cases h with
  | whileDo ht hcondition hbody =>
    rw [whileCode, List.append_assoc [_]] at hp hl ⊢
    obtain ⟨m₄, hp, hend⟩ := placed_append.mp hp
    obtain ⟨m₃, hp, hjump⟩ := placed_append.mp hp
    obtain ⟨m₂, hp, hplaced⟩ := placed_append.mp hp
    obtain ⟨m₁, hstart, hcond⟩ := placed_append.mp hp
    have hcond := Flows.condition hW hs.1 ht hcondition hcond hl.right
    have hbody := hb hs.2 hbody hplaced hl.left.left.right
    exact ((((Flows.label hstart).append hcond).append hbody).append
      (.emit (.jumpTo hjump hl.left.left.left.left))).append (.label hend)

theorem forDo_flowing (hW : W.Hosts targets x F) {control : String} {initial final : Expr}
    {direction : Direction} {body : Stmt} (hb : body.Flowing W targets x J F) :
    (Stmt.forDo control initial direction final body).Flowing W targets x J F := by
  intro hs k k' lines p q h hp hl
  rw [Stmt.setFree, Bool.and_eq_true, Bool.and_eq_true] at hs
  cases h with
  | @forDo _ _ _ v _ _ _ _ initialCode finalCode _ hr hv hti htf hinitial hfinal hbody =>
    have hne : v.type ≠ .array := by
      intro harray
      cases hv.symm.trans harray
    have hslot : W.Has v.slot .integer := hv ▸ hW.admits.slot hr hne
    have hzero : F v.slot ∨ W.fits v.slot .zero := .inr ((hslot.fits _).mpr (.integer 0))
    obtain ⟨m₈, hp, hend⟩ := placed_append.mp hp
    obtain ⟨m₇, hp, hnext⟩ := placed_append.mp hp
    obtain ⟨m₆, hp, hplaced⟩ := placed_append.mp hp
    obtain ⟨m₅, hp, htest⟩ := placed_append.mp hp
    obtain ⟨m₄, hp, hlimit⟩ := placed_append.mp hp
    obtain ⟨m₃, hp, hload⟩ := placed_append.mp hp
    obtain ⟨m₂, hp, hstart⟩ := placed_append.mp hp
    obtain ⟨m₁, hfirst, hstore⟩ := placed_append.mp hp
    obtain ⟨_, horder, hjz⟩ := htest.uncons
    obtain ⟨_, hload', hnext⟩ := hnext.uncons
    obtain ⟨_, hone, hnext⟩ := hnext.uncons
    obtain ⟨_, hstep, hnext⟩ := hnext.uncons
    obtain ⟨_, hstore', hjump⟩ := hnext.uncons
    -- the control variable gets its first value
    have hset : Pass W J F p m₂ := (hW.expr hs.1.1 hinitial hti hfirst).trans (.keep hslot hstore)
    -- it is compared with the final value, which lies above it
    have hcompare : Pass W J F m₃ m₆ := by
      refine (Path.load hslot hzero hload).trans ((hW.expr hs.1.2 hfinal htf hlimit).trans ?_)
      have horder : Path W J F m₅ F [DataType.integer.Holds, DataType.integer.Holds] _ F [DataType.boolean.Holds] :=
        .binary rfl horder fun l r hl hr => order_holds _ hl hr rfl rfl
      exact horder.trans (.branchTo hjz hl.right)
    -- the next value, and back to the comparison
    have hagain : Pass W J F m₇ m₈ := by
      refine (Path.load hslot hzero hload').trans ?_
      have hpush : Path W J F _ F [DataType.integer.Holds] _ F [DataType.integer.Holds, DataType.integer.Holds] :=
        .push rfl rfl rfl (.integer 1) hone
      have hstep : Path W J F _ F [DataType.integer.Holds, DataType.integer.Holds] _ F [DataType.integer.Holds] :=
        .binary rfl hstep fun l r hl hr => arith_holds _ hl hr rfl rfl
      refine hpush.trans (hstep.trans ((Path.keep hslot hstore').trans (.jumpTo hjump ?_)))
      exact hl.left.left.left.left.left.left.right
    have hset : Flows W targets J F (initialCode ++ emit [.storeg (some v.slot)]) p m₂ := by
      refine .straight hset ?_
      rw [labelsOf_append, labelsOf_expr hinitial, labelsOf_emit, List.nil_append]
    have hcompare : Flows W targets J F (emit [.pushg (some v.slot)] ++ finalCode
        ++ emit [.basic (.order direction.test), .jz (endForLabel k.fors)]) m₃ m₆ := by
      refine .straight hcompare ?_
      rw [labelsOf_append, labelsOf_append, labelsOf_expr hfinal, labelsOf_emit, labelsOf_emit, List.nil_append,
        List.nil_append]
    have hagain : Flows W targets J F (emit [.pushg (some v.slot), .pushi 1, .basic (.arith direction.step),
        .storeg (some v.slot), .jump (forLabel k.fors)]) m₇ m₈ := .emit hagain
    have hflows := ((((hset.append (.label hstart)).append hcompare).append
      (hb hs.2 hbody hplaced hl.left.left.right)).append hagain).append (.label hend)
    simpa only [forCode, List.append_assoc] using hflows

theorem stmts_flowing_nil : StmtsFlowing W targets x J F [] := by
  intro _ k k' lines p q h hp _
  cases h with
  | nil =>
    cases hp
    exact .straight .refl rfl

theorem stmts_flowing_cons {s : Stmt} {ss : List Stmt} (hs : s.Flowing W targets x J F)
    (hss : StmtsFlowing W targets x J F ss) : StmtsFlowing W targets x J F (s :: ss) := by
  intro hfree k k' lines p q h hp hl
  rw [stmtsSetFree, Bool.and_eq_true] at hfree
  cases h with
  | cons hcode hrest =>
    obtain ⟨m, hfirst, hmore⟩ := placed_append.mp hp
    exact (hs hfree.1 hcode hfirst hl.left).append (hss hfree.2 hrest hmore hl.right)

mutual

/-- **The code of a statement keeps to types.** -/
theorem Stmt.flows (hW : W.Hosts targets x F) : (s : Stmt) → s.Flowing W targets x J F
  | .compound body => compound_flowing (stmts_flow hW body)
  | .assign _ _ => assign_flowing hW
  | .ifThen _ thenBranch => ifThen_flowing hW (Stmt.flows hW thenBranch)
  | .ifThenElse _ thenBranch elseBranch =>
    ifThenElse_flowing hW (Stmt.flows hW thenBranch) (Stmt.flows hW elseBranch)
  | .whileDo _ body => whileDo_flowing hW (Stmt.flows hW body)
  | .forDo _ _ _ _ body => forDo_flowing hW (Stmt.flows hW body)
  | .call _ _ => stmt_call_flowing hW

theorem stmts_flow (hW : W.Hosts targets x F) : (ss : List Stmt) → StmtsFlowing W targets x J F ss
  | [] => stmts_flowing_nil
  | s :: ss => stmts_flowing_cons (Stmt.flows hW s) (stmts_flow hW ss)

end

end

end PascalStack
