import PascalStack.Proofs.Compiler.Expressions

/-!
# Compiled statements

The code that comes out of `Stmt.compile` is the code of the statement.

* `storeTarget_targets`, `controlVariable_moves`, …   the steps that deal with variables;
* `Compiler.Reserves`                                 the slots of new control variables;
* `Stmt.translates`, `stmts_translate`                the code of statements.
-/

namespace PascalStack

open Compile

section
variable {c d : Compiler} {code : List Line}

theorem storeTarget_targets {name : String} {slot : Nat} {t : DataType}
    (h : storeTarget name c = .ok (slot, t) d) :
    d = c ∧ ∀ x : Context, x.activation = c.activation → c.scopes.Extends x.scopes →
      x.Targets name slot t := by
  unfold storeTarget at h
  rw [bind_eq_ok] at h
  obtain ⟨_, _, hget, h⟩ := h
  obtain ⟨rfl, rfl⟩ := get_eq_ok.mp hget
  cases hact : c.activation with
  | none =>
    simp only [hact, bind_eq_ok, scopes_eq_ok] at h
    obtain ⟨_, _, ⟨rfl, rfl⟩, h⟩ := h
    cases hr : c.scopes.resolve? name with
    | none => simp only [hr, throw_eq_ok] at h
    | some v =>
      simp only [hr, pure_eq_ok, Prod.mk.injEq] at h
      obtain ⟨⟨rfl, rfl⟩, rfl⟩ := h
      refine ⟨rfl, fun x hx hS => .declared ?_ (hS.resolve _ _ hr)⟩
      intro a ha
      rw [hx] at ha
      cases ha
  | some a =>
    simp only [hact, ite_eq_ok, pure_eq_ok, Prod.mk.injEq, bind_eq_ok, scopes_eq_ok] at h
    rcases h with ⟨hname, ⟨rfl, rfl⟩, rfl⟩ | ⟨hname, _, _, ⟨rfl, rfl⟩, h⟩
    · exact ⟨rfl, fun x hx _ => .result hx hname⟩
    · cases hr : c.scopes.resolve? name with
      | none => simp only [hr, throw_eq_ok] at h
      | some v =>
        simp only [hr, pure_eq_ok, Prod.mk.injEq] at h
        obtain ⟨⟨rfl, rfl⟩, rfl⟩ := h
        refine ⟨rfl, fun x hx hS => .declared ?_ (hS.resolve _ _ hr)⟩
        intro b hb
        rw [hx] at hb
        cases hb
        exact hname

theorem writableArray_eq_ok {name : String} {v : Variable} (h : writableArray name c = .ok v d) :
    d = c ∧ c.scopes.resolve? name = some v ∧ v.type = .array := by
  unfold writableArray at h
  simp only [bind_eq_ok, scopes_eq_ok, check_eq_ok, indexed_eq_ok] at h
  obtain ⟨_, _, ⟨rfl, rfl⟩, w, _, ⟨hr, rfl⟩, h⟩ := h
  cases ht : w.type with
  | array =>
    simp only [ht, pure_eq_ok] at h
    obtain ⟨rfl, rfl⟩ := h
    exact ⟨rfl, hr, ht⟩
  | string => simp only [ht, throw_eq_ok] at h
  | integer => simp only [ht, throw_eq_ok] at h
  | real => simp only [ht, throw_eq_ok] at h
  | boolean => simp only [ht, throw_eq_ok] at h
  | char => simp only [ht, throw_eq_ok] at h

/-- Slots have been reserved for control variables, and the code names them all. -/
def Compiler.Reserves (c d : Compiler) (code : List Line) : Prop :=
  ∃ log, c.scopes.Allocates log d.scopes ∧ ∀ g ∈ log, g.Control ∧ g.slot ∈ slotsOf code

theorem Compiler.Reserves.nothing (h : c.scopes.SameSlots d.scopes) (code : List Line) :
    c.Reserves d code :=
  ⟨[], .same h (.refl _), nofun⟩

theorem Compiler.Reserves.mono {code' : List Line} (h : c.Reserves d code)
    (hsub : slotsOf code ⊆ slotsOf code') : c.Reserves d code' := by
  obtain ⟨log, ha, hlog⟩ := h
  exact ⟨log, ha, fun g hg => ⟨(hlog g hg).1, hsub (hlog g hg).2⟩⟩

theorem Compiler.Reserves.trans {e : Compiler} (a : c.Reserves d code) (b : d.Reserves e code) :
    c.Reserves e code := by
  obtain ⟨log₁, ha, hlog₁⟩ := a
  obtain ⟨log₂, hb, hlog₂⟩ := b
  refine ⟨log₁ ++ log₂, ha.trans hb, fun g hg => ?_⟩
  rcases List.mem_append.mp hg with hg | hg
  · exact hlog₁ g hg
  · exact hlog₂ g hg

/-- A control variable is an integer variable, old or new. -/
theorem controlVariable_moves {name : String} {slot : Nat} (he : c.scopes.Entered)
    (h : controlVariable name c = .ok slot d) :
    c.Moves d ∧ d.counters = c.counters ∧ c.Reserves d (emit [.storeg (some slot)]) ∧
      ∀ S, d.scopes.Extends S → ∃ v, S.resolve? name = some v ∧ v.type = .integer ∧ v.slot = slot := by
  unfold controlVariable at h
  simp only [bind_eq_ok, scopes_eq_ok] at h
  obtain ⟨_, _, ⟨rfl, rfl⟩, h⟩ := h
  cases hr : c.scopes.resolve? name with
  | some v =>
    simp only [hr, bind_eq_ok, check_eq_ok, expectType_eq_ok, pure_eq_ok] at h
    obtain ⟨_, _, ⟨ht, rfl⟩, rfl, rfl⟩ := h
    exact ⟨(Compiler.MovesOnly.refl c).toMoves, rfl, .nothing (.refl _) _,
      fun S hS => ⟨v, hS.resolve _ _ hr, ht.symm, rfl⟩⟩
  | none =>
    simp only [hr, bind_eq_ok, allocate_eq_ok, declare_eq_ok, pure_eq_ok] at h
    obtain ⟨_, _, ⟨rfl, rfl⟩, _, _, ⟨s, hs, rfl⟩, rfl, rfl⟩ := h
    refine ⟨⟨.control name hr hs (.refl _), rfl, rfl⟩, rfl,
      ⟨_, .declare name 1 _ hs (.refl _), fun g hg => ?_⟩, fun S hS => ?_⟩
    · rw [List.mem_singleton.mp hg]
      exact ⟨⟨rfl, rfl⟩, List.mem_singleton_self _⟩
    refine ⟨⟨c.scopes.nextSlot, .scalar .integer⟩, hS.resolve _ _ ?_, rfl, rfl⟩
    have he' : (c.scopes.allocate 1).2.Entered := he
    show s.resolve? name = _
    rw [Scopes.resolve?_declare he' hs, if_pos rfl]

theorem condition_translates {e : Expr} {place : Place} (he : c.scopes.Entered)
    (h : condition e place c = .ok code d) :
    c.MovesOnly d ∧ ∀ S, d.scopes.Extends S → S.IsCondition e ∧ ExprCode S e code := by
  unfold condition at h
  simp only [bind_eq_ok, typeOf_eq_ok, check_eq_ok, expectTruth_eq_ok] at h
  obtain ⟨t, _, ⟨ht, rfl⟩, _, _, ⟨htruth, rfl⟩, h⟩ := h
  obtain ⟨hm, hc⟩ := e.translates he h
  exact ⟨hm, fun S hS => ⟨⟨t, ((hm.extends he).trans hS).infer ht, htruth⟩, hc S hS⟩⟩

/-- The context in which the code of a statement is read. -/
def Compiler.Sees (c d : Compiler) (x : Context) : Prop :=
  x.activation = c.activation ∧ d.scopes.Extends x.scopes

theorem assign_translates {target : Access} {value : Expr} (he : c.scopes.Entered)
    (h : assign target value c = .ok code d) :
    c.MovesOnly d ∧ ∀ x, c.Sees d x → AssignCode x target value code := by
  unfold assign at h
  simp only [bind_eq_ok, typeOf_eq_ok] at h
  obtain ⟨u, _, ⟨hu, rfl⟩, a, c₁, ha, h⟩ := h
  obtain ⟨hm₁, hc₁⟩ := value.translates he ha
  have he₁ := hm₁.entered he
  cases target with
  | name id =>
    simp only [bind_eq_ok, check_eq_ok, pure_eq_ok] at h
    obtain ⟨⟨slot, t⟩, _, htarget, k, _, ⟨hk, rfl⟩, rfl, rfl⟩ := h
    obtain ⟨rfl, htarget⟩ := storeTarget_targets htarget
    refine ⟨hm₁, fun x hx => ?_⟩
    exact .name (((hm₁.extends he).trans hx.2).infer hu) (hc₁ _ hx.2)
      (htarget x (hx.1.trans hm₁.activation.symm) hx.2) (.of_assignConversion hk)
  | index base indices =>
    cases base with
    | name id =>
      cases indices with
      | nil => simp only [throw_eq_ok] at h
      | cons i more =>
        cases more with
        | cons => simp only [throw_eq_ok] at h
        | nil =>
          simp only [bind_eq_ok, check_eq_ok, addressOf_eq_ok, pure_eq_ok] at h
          obtain ⟨v, _, hv, k, _, ⟨hk, rfl⟩, _, _, ⟨hint, b, hb, rfl⟩, rfl, rfl⟩ := h
          obtain ⟨rfl, hr, harray⟩ := writableArray_eq_ok hv
          obtain ⟨hm₂, hc₂⟩ := i.translates he₁ hb
          have hm := hm₁.trans hm₂
          refine ⟨hm, fun x hx => ?_⟩
          have h₁ := (hm₂.extends he₁).trans hx.2
          exact .element (((hm.extends he).trans hx.2).infer hu) (hc₁ _ h₁) (h₁.resolve _ _ hr) harray
            (.of_assignConversion hk) (h₁.infer hint) (hc₂ _ hx.2)
    | index | field | deref => simp only [throw_eq_ok] at h
  | field | deref => simp only [throw_eq_ok] at h

theorem readingOf_eq_ok {t : DataType} {reading : List Line} (h : readingOf t = .ok reading) :
    ∃ ops, t.read? = some ops ∧ reading = emit ops := by
  unfold readingOf at h
  cases hr : t.read? with
  | some ops => rw [hr] at h; cases h; exact ⟨ops, rfl, rfl⟩
  | none => rw [hr] at h; cases h

theorem readInto_translates {target : Access} (he : c.scopes.Entered)
    (h : readInto target c = .ok code d) :
    c.MovesOnly d ∧ ∀ x, c.Sees d x → ReadCode x target code := by
  unfold readInto at h
  cases target with
  | name id =>
    simp only [bind_eq_ok, check_eq_ok, pure_eq_ok] at h
    obtain ⟨⟨slot, t⟩, _, htarget, k, _, ⟨hk, rfl⟩, rfl, rfl⟩ := h
    obtain ⟨rfl, htarget⟩ := storeTarget_targets htarget
    obtain ⟨ops, hops, rfl⟩ := readingOf_eq_ok hk
    exact ⟨.refl _, fun x hx => .name (htarget x hx.1 hx.2) hops⟩
  | index base indices =>
    cases base with
    | name id =>
      cases indices with
      | nil => simp only [throw_eq_ok] at h
      | cons i more =>
        cases more with
        | cons => simp only [throw_eq_ok] at h
        | nil =>
          simp only [bind_eq_ok, check_eq_ok, addressOf_eq_ok, pure_eq_ok] at h
          obtain ⟨v, _, hv, k, _, ⟨hk, rfl⟩, _, _, ⟨hint, b, hb, rfl⟩, rfl, rfl⟩ := h
          obtain ⟨rfl, hr, harray⟩ := writableArray_eq_ok hv
          obtain ⟨ops, hops, rfl⟩ := readingOf_eq_ok hk
          obtain ⟨hm, hc⟩ := i.translates he hb
          refine ⟨hm, fun x hx => ?_⟩
          have h₁ := (hm.extends he).trans hx.2
          exact .element (h₁.resolve _ _ hr) harray hops (h₁.infer hint) (hc _ hx.2)
    | index | field | deref => simp only [throw_eq_ok] at h
  | field | deref => simp only [throw_eq_ok] at h

theorem checkWidths_eq_ok {a : Argument} {u : Unit} (h : checkWidths a c = .ok u d) : d = c := by
  cases a with
  | value e => exact (pure_eq_ok.mp h).2.symm
  | wide e width =>
    simp only [checkWidths, bind_eq_ok, typeOf_eq_ok, check_eq_ok] at h
    obtain ⟨_, _, ⟨_, rfl⟩, _, rfl⟩ := h
    rfl
  | precise e width precision =>
    simp only [checkWidths, bind_eq_ok, typeOf_eq_ok, check_eq_ok] at h
    obtain ⟨_, _, ⟨_, rfl⟩, _, _, ⟨_, rfl⟩, _, _, ⟨_, rfl⟩, _, rfl⟩ := h
    rfl

theorem writeAll_translates {b : Builtin} {arguments : List Argument}
    (he : c.scopes.Entered) (h : writeAll b arguments c = .ok code d) :
    c.MovesOnly d ∧ ∀ x, c.Sees d x → WritesCode x arguments code := by
  induction arguments generalizing c code with
  | nil =>
    rw [writeAll, pure_eq_ok] at h
    obtain ⟨rfl, rfl⟩ := h
    exact ⟨.refl _, fun x _ => .nil⟩
  | cons a arguments ih =>
    rw [writeAll] at h
    simp only [bind_eq_ok, typeOf_eq_ok] at h
    obtain ⟨_, _, hw, t, _, ⟨ht, rfl⟩, h⟩ := h
    cases checkWidths_eq_ok hw
    cases hwrite : t.write? with
    | none => simp only [hwrite, throw_eq_ok] at h
    | some write =>
      simp only [hwrite, bind_eq_ok, pure_eq_ok] at h
      obtain ⟨p, c₁, hp, r, _, hr, rfl, rfl⟩ := h
      obtain ⟨hm₁, hc₁⟩ := a.expr.translates he hp
      have he₁ := hm₁.entered he
      obtain ⟨hm₂, hc₂⟩ := ih he₁ hr
      have hm := hm₁.trans hm₂
      refine ⟨hm, fun x hx => ?_⟩
      exact .cons (((hm.extends he).trans hx.2).infer ht) hwrite
        (hc₁ _ ((hm₂.extends he₁).trans hx.2)) (hc₂ x ⟨hx.1.trans hm₁.activation.symm, hx.2⟩)

theorem readLine_translates {name : String} {b : Builtin} {arguments : List Argument}
    (hb : Builtin.ofName? name = some b) (hread : b = .read ∨ b = .readln)
    (he : c.scopes.Entered) (h : readLine arguments c = .ok code d) :
    c.MovesOnly d ∧ ∀ x, c.Sees d x → CallCode x name arguments code := by
  match arguments with
  | [] =>
    rw [readLine, pure_eq_ok] at h
    obtain ⟨rfl, rfl⟩ := h
    exact ⟨.refl _, fun x _ => .skip hb hread⟩
  | .value (.access target) :: rest =>
    rw [readLine] at h
    obtain ⟨hm, hc⟩ := readInto_translates he h
    exact ⟨hm, fun x hx => .read hb hread (hc x hx)⟩
  | .value (.call _ _) :: _ => cases h
  | .value (.binary _ _ _) :: _ => cases h
  | .value (.signed _ _) :: _ => cases h
  | .value (.power _ _) :: _ => cases h
  | .value (.not _) :: _ => cases h
  | .value (.constant _) :: _ => cases h
  | .value (.set _) :: _ => cases h
  | .wide _ _ :: _ => cases h
  | .precise _ _ _ :: _ => cases h

/-- A call as a statement is the call as an expression, with its value dropped. -/
theorem callStatement_of_expr {name : String} {arguments : List Argument}
    (hb : ∀ b, Builtin.ofName? name = some b → b.isFunction = true)
    (h : callStatement name arguments c = .ok code d) :
    ∃ a, (Expr.call name arguments).compile c = .ok a d ∧ code = a ++ emit [.pop 1] := by
  rw [Expr.compile]
  unfold callStatement at h
  cases hname : Builtin.ofName? name with
  | some b =>
    have hfun := hb b hname
    simp only [hname, hfun, if_true, bind_eq_ok, checkArity_eq_ok, pure_eq_ok] at h ⊢
    obtain ⟨_, _, ⟨har, rfl⟩, h⟩ := h
    cases b with
    | length =>
      simp only [bind_eq_ok, pure_eq_ok] at h
      obtain ⟨a, _, ha, rfl, rfl⟩ := h
      exact ⟨_, ⟨(), _, ⟨har, rfl⟩, a, _, ha, rfl, rfl⟩, rfl⟩
    | charat =>
      simp only [bind_eq_ok, pure_eq_ok] at h
      obtain ⟨a, _, ha, rfl, rfl⟩ := h
      exact ⟨_, ⟨(), _, ⟨har, rfl⟩, a, _, ha, rfl, rfl⟩, rfl⟩
    | write => cases hfun
    | writeln => cases hfun
    | read => cases hfun
    | readln => cases hfun
  | none =>
    simp only [hname, bind_eq_ok, scopes_eq_ok, ite_eq_ok, throw_eq_ok, false_and, exists_false,
      and_false, false_or, pure_eq_ok] at h ⊢
    obtain ⟨_, _, ⟨rfl, rfl⟩, _, f, _, hf, a, _, ha, rfl, rfl⟩ := h
    exact ⟨_, ⟨f, _, hf, a, _, ha, rfl, rfl⟩, rfl⟩

theorem callStatement_translates {name : String} {arguments : List Argument}
    (he : c.scopes.Entered) (h : callStatement name arguments c = .ok code d) :
    c.MovesOnly d ∧ ∀ x, c.Sees d x → CallCode x name arguments code := by
  have function : (∀ b, Builtin.ofName? name = some b → b.isFunction = true) →
      c.MovesOnly d ∧ ∀ x, c.Sees d x → CallCode x name arguments code := by
    intro hb
    obtain ⟨a, ha, rfl⟩ := callStatement_of_expr hb h
    obtain ⟨hm, hc⟩ := (Expr.call name arguments).translates he ha
    exact ⟨hm, fun x hx => .function hb (hc _ hx.2)⟩
  cases hname : Builtin.ofName? name with
  | none => exact function (by rw [hname]; exact nofun)
  | some b =>
    by_cases hfun : b.isFunction = true
    · refine function fun b' hb' => ?_
      rw [hname] at hb'
      cases hb'
      exact hfun
    · unfold callStatement at h
      simp only [hname, bind_eq_ok, checkArity_eq_ok] at h
      obtain ⟨_, _, ⟨_, rfl⟩, h⟩ := h
      cases b with
      | length => exact absurd rfl hfun
      | charat => exact absurd rfl hfun
      | read => exact readLine_translates hname (.inl rfl) he h
      | readln => exact readLine_translates hname (.inr rfl) he h
      | write =>
        simp only [bind_eq_ok, pure_eq_ok] at h
        obtain ⟨a, _, ha, rfl, rfl⟩ := h
        obtain ⟨hm, hc⟩ := writeAll_translates he ha
        exact ⟨hm, fun x hx => .write hname (.inl rfl) (hc x hx)⟩
      | writeln =>
        simp only [bind_eq_ok, pure_eq_ok] at h
        obtain ⟨a, _, ha, rfl, rfl⟩ := h
        obtain ⟨hm, hc⟩ := writeAll_translates he ha
        exact ⟨hm, fun x hx => .write hname (.inr rfl) (hc x hx)⟩

end

/-! ## one lemma for each form of statement -/

def Stmt.Translates (s : Stmt) : Prop :=
  ∀ ⦃c d : Compiler⦄ ⦃code : List Line⦄, c.scopes.Entered →
    s.compile c = .ok code d →
    c.Moves d ∧ c.Reserves d code ∧ ∀ x, c.Sees d x → StmtCode x c.counters s code d.counters

def StmtsTranslate (ss : List Stmt) : Prop :=
  ∀ ⦃c d : Compiler⦄ ⦃code : List Line⦄, c.scopes.Entered →
    compileAll ss c = .ok code d →
    c.Moves d ∧ c.Reserves d code ∧ ∀ x, c.Sees d x → StmtsCode x c.counters ss code d.counters

/-- What is in sight after a step is in sight before it. -/
theorem Compiler.Sees.before {c c₁ d : Compiler} {x : Context} (h : c.Sees d x) (m : c₁.Moves d)
    (he : c₁.scopes.Entered) : c.Sees c₁ x :=
  ⟨h.1, (m.extends he).trans h.2⟩

theorem Compiler.Sees.after {c c₁ d : Compiler} {x : Context} (h : c.Sees d x) (m : c.Moves c₁) :
    c₁.Sees d x :=
  ⟨h.1.trans m.activation.symm, h.2⟩

theorem compound_translates {body : List Stmt} (hb : StmtsTranslate body) :
    (Stmt.compound body).Translates := by
  intro c d code he h
  rw [Stmt.compile] at h
  obtain ⟨hm, hres, hc⟩ := hb he h
  exact ⟨hm, hres, fun x hx => .compound (hc x hx)⟩

theorem assignment_translates (target : Access) (value : Expr) :
    (Stmt.assign target value).Translates := by
  intro c d code he h
  rw [Stmt.compile] at h
  obtain ⟨hm, hc⟩ := assign_translates he h
  refine ⟨hm.toMoves, .nothing hm.slots _, fun x hx => ?_⟩
  rw [hm.counters]
  exact .assign (hc x hx)

theorem procedure_translates (name : String) (arguments : List Argument) :
    (Stmt.call name arguments).Translates := by
  intro c d code he h
  rw [Stmt.compile] at h
  obtain ⟨hm, hc⟩ := callStatement_translates he h
  refine ⟨hm.toMoves, .nothing hm.slots _, fun x hx => ?_⟩
  rw [hm.counters]
  exact .call (hc x hx)

theorem nextIf_moves {c d : Compiler} {k : Nat} (h : nextIf c = .ok k d) :
    k = c.counters.ifs ∧ c.Moves d ∧ c.scopes.SameSlots d.scopes ∧
      d.counters = { c.counters with ifs := c.counters.ifs + 1 } := by
  obtain ⟨rfl, rfl⟩ := nextIf_eq_ok.mp h
  exact ⟨rfl, ⟨.refl _, rfl, rfl⟩, .refl _, rfl⟩

theorem nextWhile_moves {c d : Compiler} {k : Nat} (h : nextWhile c = .ok k d) :
    k = c.counters.whiles ∧ c.Moves d ∧ c.scopes.SameSlots d.scopes ∧
      d.counters = { c.counters with whiles := c.counters.whiles + 1 } := by
  obtain ⟨rfl, rfl⟩ := nextWhile_eq_ok.mp h
  exact ⟨rfl, ⟨.refl _, rfl, rfl⟩, .refl _, rfl⟩

theorem nextFor_moves {c d : Compiler} {k : Nat} (h : nextFor c = .ok k d) :
    k = c.counters.fors ∧ c.Moves d ∧ c.scopes.SameSlots d.scopes ∧
      d.counters = { c.counters with fors := c.counters.fors + 1 } := by
  obtain ⟨rfl, rfl⟩ := nextFor_eq_ok.mp h
  exact ⟨rfl, ⟨.refl _, rfl, rfl⟩, .refl _, rfl⟩

theorem ifThen_translates {c₀ : Expr} {thenBranch : Stmt} (ht : thenBranch.Translates) :
    (Stmt.ifThen c₀ thenBranch).Translates := by
  intro c d code he h
  rw [Stmt.compile] at h
  simp only [bind_eq_ok, pure_eq_ok] at h
  obtain ⟨_, k, hk, cc, c₁, hcc, tc, _, htc, rfl, rfl⟩ := h
  obtain ⟨rfl, hm₀, hslots, hcount⟩ := nextIf_moves hk
  have he₀ := hm₀.entered he
  obtain ⟨hm₁, hc₁⟩ := condition_translates he₀ hcc
  have he₁ := hm₁.entered he₀
  obtain ⟨hm₂, hres, hc₂⟩ := ht he₁ htc
  have hm₀₁ := hm₀.trans hm₁.toMoves
  have hsub : slotsOf tc ⊆ slotsOf (ifCode c.counters.ifs cc tc) := by
    simp only [ifCode, slotsOf_append]
    exact fun n hn => List.mem_append_left _ (List.mem_append_right _ hn)
  refine ⟨hm₀₁.trans hm₂, (Compiler.Reserves.nothing (hslots.trans hm₁.slots) _).trans (hres.mono hsub),
    fun x hx => ?_⟩
  obtain ⟨hcond, hcode⟩ := hc₁ _ (hx.before hm₂ he₁).2
  have hthen := hc₂ x (hx.after hm₀₁)
  rw [hm₁.counters, hcount] at hthen
  exact .ifThen hcond hcode hthen

theorem ifThenElse_translates {c₀ : Expr} {thenBranch elseBranch : Stmt}
    (ht : thenBranch.Translates) (hf : elseBranch.Translates) :
    (Stmt.ifThenElse c₀ thenBranch elseBranch).Translates := by
  intro c d code he h
  rw [Stmt.compile] at h
  simp only [bind_eq_ok, pure_eq_ok] at h
  obtain ⟨_, k, hk, cc, c₁, hcc, tc, c₂, htc, fc, c₃, hfc, rfl, rfl⟩ := h
  obtain ⟨rfl, hm₀, hslots, hcount⟩ := nextIf_moves hk
  have he₀ := hm₀.entered he
  obtain ⟨hm₁, hc₁⟩ := condition_translates he₀ hcc
  have he₁ := hm₁.entered he₀
  obtain ⟨hm₂, hres₂, hc₂⟩ := ht he₁ htc
  have he₂ := hm₂.entered he₁
  obtain ⟨hm₃, hres₃, hc₃⟩ := hf he₂ hfc
  have hm₀₁ := hm₀.trans hm₁.toMoves
  have hm₀₂ := hm₀₁.trans hm₂
  have hres : c.Reserves c₃ (ifElseCode c.counters.ifs cc tc fc) := by
    refine (Compiler.Reserves.nothing (hslots.trans hm₁.slots) _).trans
      ((hres₂.mono fun n hn => ?_).trans (hres₃.mono fun n hn => ?_))
    · simp only [ifElseCode, slotsOf_append, List.mem_append]
      exact .inl (.inl (.inl (.inl (.inr hn))))
    · simp only [ifElseCode, slotsOf_append, List.mem_append]
      exact .inl (.inr hn)
  refine ⟨hm₀₂.trans hm₃, hres, fun x hx => ?_⟩
  have hx₂ := hx.before hm₃ he₂
  obtain ⟨hcond, hcode⟩ := hc₁ _ (hx₂.before hm₂ he₁).2
  have hthen := hc₂ x (hx₂.after hm₀₁)
  rw [hm₁.counters, hcount] at hthen
  exact .ifThenElse hcond hcode hthen (hc₃ x (hx.after hm₀₂))

theorem whileDo_translates {c₀ : Expr} {body : Stmt} (hb : body.Translates) :
    (Stmt.whileDo c₀ body).Translates := by
  intro c d code he h
  rw [Stmt.compile] at h
  simp only [bind_eq_ok, pure_eq_ok] at h
  obtain ⟨_, k, hk, cc, c₁, hcc, bc, _, hbc, rfl, rfl⟩ := h
  obtain ⟨rfl, hm₀, hslots, hcount⟩ := nextWhile_moves hk
  have he₀ := hm₀.entered he
  obtain ⟨hm₁, hc₁⟩ := condition_translates he₀ hcc
  have he₁ := hm₁.entered he₀
  obtain ⟨hm₂, hres, hc₂⟩ := hb he₁ hbc
  have hm₀₁ := hm₀.trans hm₁.toMoves
  have hsub : slotsOf bc ⊆ slotsOf (whileCode c.counters.whiles cc bc) := by
    simp only [whileCode, slotsOf_append]
    exact fun n hn => List.mem_append_left _ (List.mem_append_left _ (List.mem_append_right _ hn))
  refine ⟨hm₀₁.trans hm₂, (Compiler.Reserves.nothing (hslots.trans hm₁.slots) _).trans (hres.mono hsub),
    fun x hx => ?_⟩
  obtain ⟨hcond, hcode⟩ := hc₁ _ (hx.before hm₂ he₁).2
  have hbody := hc₂ x (hx.after hm₀₁)
  rw [hm₁.counters, hcount] at hbody
  exact .whileDo hcond hcode hbody

theorem forDo_translates {control : String} {initial final : Expr} {direction : Direction}
    {body : Stmt} (hb : body.Translates) :
    (Stmt.forDo control initial direction final body).Translates := by
  intro c d code he h
  rw [Stmt.compile] at h
  simp only [bind_eq_ok, typeOf_eq_ok, check_eq_ok, expectType_eq_ok, pure_eq_ok] at h
  obtain ⟨_, k, hk, slot, c₁, hslot, _, _, ⟨hi, rfl⟩, _, _, ⟨rfl, rfl⟩, _, _, ⟨hf, rfl⟩,
    _, _, ⟨rfl, rfl⟩, ic, c₂, hic, fc, c₃, hfc, bc, c₄, hbc, rfl, rfl⟩ := h
  obtain ⟨rfl, hm₀, hslots, hcount⟩ := nextFor_moves hk
  have he₀ := hm₀.entered he
  obtain ⟨hm₁, hcount₁, hres₁, hc₁⟩ := controlVariable_moves he₀ hslot
  have he₁ := hm₁.entered he₀
  obtain ⟨hm₂, hc₂⟩ := initial.translates he₁ hic
  have he₂ := hm₂.entered he₁
  obtain ⟨hm₃, hc₃⟩ := final.translates he₂ hfc
  have he₃ := hm₃.entered he₂
  obtain ⟨hm₄, hres₄, hc₄⟩ := hb he₃ hbc
  have hm₂₃ := hm₂.trans hm₃
  have hm₀₃ := (hm₀.trans hm₁).trans hm₂₃.toMoves
  have hres : c.Reserves c₄ (forCode c.counters.fors slot direction ic fc bc) := by
    refine (Compiler.Reserves.nothing hslots _).trans ((hres₁.mono fun n hn => ?_).trans
      ((Compiler.Reserves.nothing hm₂₃.slots _).trans (hres₄.mono fun n hn => ?_)))
    · simp only [forCode, slotsOf_append, List.mem_append]
      exact .inl (.inl (.inl (.inl (.inl (.inl (.inl (.inr hn)))))))
    · simp only [forCode, slotsOf_append, List.mem_append]
      exact .inl (.inl (.inr hn))
  refine ⟨hm₀₃.trans hm₄, hres, fun x hx => ?_⟩
  have hx₃ := hx.before hm₄ he₃
  have hx₂ := hx₃.before hm₃.toMoves he₂
  have hx₁ := hx₂.before hm₂.toMoves he₁
  obtain ⟨v, hv, ht, rfl⟩ := hc₁ _ hx₁.2
  have hbody := hc₄ x (hx.after hm₀₃)
  rw [hm₂₃.counters, hcount₁, hcount] at hbody
  exact .forDo hv ht (hx₁.2.infer hi) (hx₁.2.infer hf) (hc₂ _ hx₂.2) (hc₃ _ hx₃.2) hbody

theorem stmts_nil : StmtsTranslate [] := by
  intro c d code _ h
  rw [compileAll, pure_eq_ok] at h
  obtain ⟨rfl, rfl⟩ := h
  exact ⟨(Compiler.MovesOnly.refl c).toMoves, .nothing (.refl _) _, fun x _ => .nil⟩

theorem stmts_cons {s : Stmt} {ss : List Stmt} (hs : s.Translates) (hss : StmtsTranslate ss) :
    StmtsTranslate (s :: ss) := by
  intro c d code he h
  rw [compileAll] at h
  simp only [bind_eq_ok, pure_eq_ok] at h
  obtain ⟨a, c₁, ha, r, c₂, hr, rfl, rfl⟩ := h
  obtain ⟨hm₁, hres₁, hc₁⟩ := hs he ha
  have he₁ := hm₁.entered he
  obtain ⟨hm₂, hres₂, hc₂⟩ := hss he₁ hr
  have hres : c.Reserves c₂ (a ++ r) := by
    refine (hres₁.mono fun n hn => ?_).trans (hres₂.mono fun n hn => ?_)
    · rw [slotsOf_append]
      exact List.mem_append_left _ hn
    · rw [slotsOf_append]
      exact List.mem_append_right _ hn
  exact ⟨hm₁.trans hm₂, hres, fun x hx => .cons (hc₁ x (hx.before hm₂ he₁)) (hc₂ x (hx.after hm₁))⟩

/-! ## all statements -/

mutual

theorem Stmt.translates : (s : Stmt) → s.Translates
  | .compound body => compound_translates (stmts_translate body)
  | .assign target value => assignment_translates target value
  | .ifThen _ thenBranch => ifThen_translates thenBranch.translates
  | .ifThenElse _ thenBranch elseBranch =>
    ifThenElse_translates thenBranch.translates elseBranch.translates
  | .whileDo _ body => whileDo_translates body.translates
  | .forDo _ _ _ _ body => forDo_translates body.translates
  | .call name arguments => procedure_translates name arguments

theorem stmts_translate : (ss : List Stmt) → StmtsTranslate ss
  | [] => stmts_nil
  | s :: ss => stmts_cons s.translates (stmts_translate ss)

end

end PascalStack
