import PascalStack.Proofs.Compiler.Translation

/-!
# Compiled expressions

The code that comes out of `Expr.compile` is the code of the expression.

* `Compiler.Moves`     what the compilation of an expression leaves as it was;
* `Expr.translates`    the code of expressions.
-/

namespace PascalStack

def Compiler.counters (c : Compiler) : Counters := ⟨c.ifs, c.whiles, c.fors⟩

/-- Names in scope have been used, and nothing else changed but the counters of labels. -/
structure Compiler.Moves (c d : Compiler) : Prop where
  uses : Scopes.Uses c.scopes d.scopes
  activation : d.activation = c.activation
  pending : d.pending = c.pending

/-- Not even the counters changed, and no slot was reserved. -/
structure Compiler.MovesOnly (c d : Compiler) : Prop extends c.Moves d where
  counters : d.counters = c.counters
  slots : c.scopes.SameSlots d.scopes

namespace Compiler
variable {c d e : Compiler}

theorem MovesOnly.refl (c : Compiler) : c.MovesOnly c := ⟨⟨.refl _, rfl, rfl⟩, rfl, .refl _⟩

theorem Moves.trans (a : c.Moves d) (b : d.Moves e) : c.Moves e :=
  ⟨a.uses.trans b.uses, b.activation.trans a.activation, b.pending.trans a.pending⟩

theorem MovesOnly.trans (a : c.MovesOnly d) (b : d.MovesOnly e) : c.MovesOnly e :=
  ⟨a.toMoves.trans b.toMoves, b.counters.trans a.counters, a.slots.trans b.slots⟩

theorem markCalled_moves (c : Compiler) (name : String) : c.MovesOnly (Compile.markCalled c name) :=
  ⟨⟨.called name (.refl _), rfl, rfl⟩, rfl, rfl, rfl, rfl⟩

theorem Moves.extends (h : c.Moves d) (he : c.scopes.Entered) : c.scopes.Extends d.scopes :=
  h.uses.extends he

theorem Moves.entered (h : c.Moves d) (he : c.scopes.Entered) : d.scopes.Entered :=
  h.uses.entered he

end Compiler

open Compile

/-- A function that was found and marked may be called from then on. -/
theorem callable_of_callee {c d : Compiler} {name : String} {count : Nat} {f : Signature}
    (h : callee name count c = .ok f d) {S : Scopes} (hS : d.scopes.Extends S) :
    ∃ g, S.Callable name g ∧ f.Grows g := by
  obtain ⟨hf, hext, _, rfl⟩ := callee_eq_ok.mp h
  have hmark : (markCalled c name).scopes.function? name = some f.markCalled := by
    show (c.scopes.functions.modify name _).find? name = _
    rw [Table.find?_modify, if_pos rfl]
    show (c.scopes.function? name).map _ = _
    rw [hf]
    rfl
  obtain ⟨g, hg, hgrow⟩ := hS.function _ _ hmark
  refine ⟨g, ⟨hg, hgrow.called rfl, ?_⟩, f.grows_markCalled.trans hgrow⟩
  rw [hgrow.directive]
  exact hext

theorem callee_moves {c d : Compiler} {name : String} {count : Nat} {f : Signature}
    (h : callee name count c = .ok f d) : c.MovesOnly d := by
  obtain ⟨_, _, _, rfl⟩ := callee_eq_ok.mp h
  exact c.markCalled_moves name

theorem expectType_eq_ok {t u : DataType} {place : Place} {x : Unit} :
    expectType t u place = .ok x ↔ t = u := by
  unfold expectType
  split
  · exact ⟨fun _ => ‹_›, fun _ => rfl⟩
  · exact ⟨nofun, fun h => absurd h ‹_›⟩

theorem expectNumeric_eq_ok {t : DataType} {place : Place} {x : Unit} :
    expectNumeric t place = .ok x ↔ t.isNumeric = true := by
  unfold expectNumeric
  split
  · exact ⟨fun _ => ‹_›, fun _ => rfl⟩
  · exact ⟨nofun, fun h => absurd h ‹_›⟩

theorem expectTruth_eq_ok {t : DataType} {place : Place} {x : Unit} :
    expectTruth t place = .ok x ↔ (t = .boolean ∨ t = .integer) := by
  cases t <;> simp [expectTruth]

section
variable {c d : Compiler} {code : List Line}

theorem addressOf_eq_ok {v : Variable} {i : Expr} {index : Compile (List Line)} :
    addressOf v i index c = .ok code d ↔
      c.scopes.infer i = .ok .integer ∧ ∃ a, index c = .ok a d ∧ code = a ++ addressCode v := by
  unfold addressOf
  simp only [bind_eq_ok, typeOf_eq_ok, check_eq_ok, expectType_eq_ok, pure_eq_ok]
  constructor
  · rintro ⟨_, _, ⟨ht, rfl⟩, _, _, ⟨rfl, rfl⟩, a, _, ha, rfl, rfl⟩
    exact ⟨ht, a, ha, rfl⟩
  · rintro ⟨ht, a, ha, rfl⟩
    exact ⟨_, _, ⟨ht, rfl⟩, (), _, ⟨rfl, rfl⟩, a, _, ha, rfl, rfl⟩

theorem characterOf_eq_ok {v : Variable} {i : Expr} {index : Compile (List Line)} :
    characterOf v i index c = .ok code d ↔
      c.scopes.infer i = .ok .integer ∧
        ∃ a, index c = .ok a d ∧ code = emit [.pushg (some v.slot)] ++ a ++ characterCode := by
  unfold characterOf
  simp only [bind_eq_ok, typeOf_eq_ok, check_eq_ok, expectType_eq_ok, pure_eq_ok]
  constructor
  · rintro ⟨_, _, ⟨ht, rfl⟩, _, _, ⟨rfl, rfl⟩, a, _, ha, rfl, rfl⟩
    exact ⟨ht, a, ha, rfl⟩
  · rintro ⟨ht, a, ha, rfl⟩
    exact ⟨_, _, ⟨ht, rfl⟩, (), _, ⟨rfl, rfl⟩, a, _, ha, rfl, rfl⟩

end

/-! ## one lemma for each form of expression -/

/-- The code that comes out of a compilation is the code of the expression. -/
def Expr.Translates (e : Expr) : Prop :=
  ∀ ⦃c d : Compiler⦄ ⦃code : List Line⦄, c.scopes.Entered →
    e.compile c = .ok code d → c.MovesOnly d ∧ ∀ S, d.scopes.Extends S → ExprCode S e code

def Access.Translates (a : Access) : Prop :=
  ∀ ⦃c d : Compiler⦄ ⦃code : List Line⦄, c.scopes.Entered →
    a.compile c = .ok code d → c.MovesOnly d ∧ ∀ S, d.scopes.Extends S → AccessCode S a code

/-- The same for the arguments of functions.  There are as many arguments as parameters. -/
def ArgumentsTranslate (compile : List DataType → List Argument → Compile (List Line))
    (ts : List DataType) (arguments : List Argument) : Prop :=
  ts.length = arguments.length →
    ∀ ⦃c d : Compiler⦄ ⦃code : List Line⦄, c.scopes.Entered → compile ts arguments c = .ok code d →
      c.MovesOnly d ∧ ∀ S, d.scopes.Extends S → ArgumentsCode S ts arguments code

def MembersTranslate (members : List Member) : Prop :=
  ∀ ⦃c d : Compiler⦄ ⦃code : List Line⦄, c.scopes.Entered → compileMembers members c = .ok code d →
    c.MovesOnly d ∧ ∀ S, d.scopes.Extends S → MembersCode S members code

theorem access_translates {a : Access} (ha : a.Translates) : (Expr.access a).Translates := by
  intro c d code he h
  rw [Expr.compile] at h
  obtain ⟨hm, hc⟩ := ha he h
  exact ⟨hm, fun S hS => .access (hc S hS)⟩

theorem constant_translates (k : Constant) : (Expr.constant k).Translates := by
  intro c d code he h
  rw [Expr.compile, pure_eq_ok] at h
  obtain ⟨rfl, rfl⟩ := h
  exact ⟨.refl _, fun S _ => .constant⟩

theorem set_translates {members : List Member} (hm : MembersTranslate members) :
    (Expr.set members).Translates := by
  intro c d code he h
  rw [Expr.compile] at h
  obtain ⟨hmoves, hc⟩ := hm he h
  exact ⟨hmoves, fun S hS => .set (hc S hS)⟩

theorem signed_translates {sign : Sign} {operand : Expr} (ho : operand.Translates) :
    (Expr.signed sign operand).Translates := by
  intro c d code he h
  rw [Expr.compile] at h
  simp only [bind_eq_ok, typeOf_eq_ok, check_eq_ok, expectNumeric_eq_ok, pure_eq_ok] at h
  obtain ⟨t, _, ⟨ht, rfl⟩, _, _, ⟨hnum, rfl⟩, a, _, ha, rfl, rfl⟩ := h
  obtain ⟨hm, hc⟩ := ho he ha
  refine ⟨hm, fun S hS => .signed ?_ hnum (hc S hS)⟩
  exact ((hm.extends he).trans hS).infer ht

theorem not_translates {operand : Expr} (ho : operand.Translates) :
    (Expr.not operand).Translates := by
  intro c d code he h
  rw [Expr.compile] at h
  simp only [bind_eq_ok, typeOf_eq_ok, check_eq_ok, expectTruth_eq_ok, pure_eq_ok] at h
  obtain ⟨t, _, ⟨ht, rfl⟩, _, _, ⟨htruth, rfl⟩, a, _, ha, rfl, rfl⟩ := h
  obtain ⟨hm, hc⟩ := ho he ha
  refine ⟨hm, fun S hS => .not ?_ htruth (hc S hS)⟩
  exact ((hm.extends he).trans hS).infer ht

theorem binary_translates {op : BinaryOp} {left right : Expr} (hl : left.Translates)
    (hr : right.Translates) : (Expr.binary op left right).Translates := by
  intro c d code he h
  rw [Expr.compile] at h
  simp only [bind_eq_ok, typeOf_eq_ok, check_eq_ok, pure_eq_ok] at h
  obtain ⟨lt, _, ⟨hlt, rfl⟩, rt, _, ⟨hrt, rfl⟩, a, _, ⟨ha, rfl⟩, lc, c₁, hlc, rc, _, hrc, rfl, rfl⟩ := h
  obtain ⟨hm₁, hc₁⟩ := hl he hlc
  obtain ⟨hm₂, hc₂⟩ := hr (hm₁.entered he) hrc
  have hm := hm₁.trans hm₂
  refine ⟨hm, fun S hS => ?_⟩
  have hcS := (hm.extends he).trans hS
  have hdS := (hm₂.extends (hm₁.entered he)).trans hS
  exact .binary (hcS.infer hlt) (hcS.infer hrt) ha (hc₁ S hdS) (hc₂ S hS)

theorem power_translates {base exponent : Expr} (hb : base.Translates) :
    (Expr.power base exponent).Translates := by
  intro c d code he h
  rw [Expr.compile] at h
  simp only [bind_eq_ok, typeOf_eq_ok, check_eq_ok, expectNumeric_eq_ok, ite_eq_ok, pure_eq_ok] at h
  obtain ⟨n, _, ⟨hn, rfl⟩, t, _, ⟨ht, rfl⟩, _, _, ⟨hnum, rfl⟩, h⟩ := h
  rcases h with ⟨rfl, rfl, rfl⟩ | ⟨hzero, a, _, ha, rfl, rfl⟩
  · exact ⟨.refl _, fun S hS => .unit hn (hS.infer ht) hnum⟩
  · obtain ⟨hm, hc⟩ := hb he ha
    obtain ⟨k, rfl⟩ := Nat.exists_eq_succ_of_ne_zero hzero
    refine ⟨hm, fun S hS => .power hn ?_ hnum (hc S hS)⟩
    exact ((hm.extends he).trans hS).infer ht

/-- A predefined function with the right number of arguments takes as many as it has parameters. -/
theorem length_parameters {b : Builtin} {count : Nat} (hb : b.isFunction = true)
    (h : b.arity.accepts count = true) : b.parameters.length = count := by
  cases b with
  | length => exact (of_decide_eq_true h).symm
  | charat => exact (of_decide_eq_true h).symm
  | write => cases hb
  | writeln => cases hb
  | read => cases hb
  | readln => cases hb

theorem parameters_ne_array (b : Builtin) : ∀ t ∈ b.parameters, t ≠ .array := by
  cases b <;> decide

theorem call_translates {name : String} {arguments : List Argument}
    (hb : ∀ b, ArgumentsTranslate (compileBuiltin b) b.parameters arguments)
    (hu : ∀ label ts, ArgumentsTranslate (compileArguments label 1) ts arguments) :
    (Expr.call name arguments).Translates := by
  intro c d code he h
  rw [Expr.compile] at h
  cases hname : Builtin.ofName? name with
  | some b =>
    simp only [hname, ite_eq_ok, bind_eq_ok, checkArity_eq_ok, throw_eq_ok, pure_eq_ok,
      and_false, or_false] at h
    obtain ⟨hfun, _, _, ⟨har, rfl⟩, a, _, ha, rfl, rfl⟩ := h
    obtain ⟨hm, hc⟩ := hb b (length_parameters hfun har) he ha
    exact ⟨hm, fun S hS => .builtin hname hfun (hc S hS)⟩
  | none =>
    simp only [hname, bind_eq_ok, pure_eq_ok] at h
    obtain ⟨f, c₁, hf, a, _, ha, rfl, rfl⟩ := h
    have hm₁ := callee_moves hf
    have hlen := (callee_eq_ok.mp hf).2.2.1
    obtain ⟨hm₂, hc⟩ := hu _ _ hlen.symm (hm₁.entered he) ha
    refine ⟨hm₁.trans hm₂, fun S hS => ?_⟩
    obtain ⟨g, hg, hgrow⟩ := callable_of_callee hf ((hm₂.extends (hm₁.entered he)).trans hS)
    rw [← hgrow.label]
    refine .call hname hg ?_
    rw [hgrow.parameters]
    exact hc S hS

theorem name_translates (id : String) : (Access.name id).Translates := by
  intro c d code he h
  rw [Access.compile] at h
  cases htruth : truthName? id with
  | some b =>
    simp only [htruth, pure_eq_ok] at h
    obtain ⟨rfl, rfl⟩ := h
    exact ⟨.refl _, fun S _ => .truth htruth⟩
  | none =>
    simp only [htruth, bind_eq_ok, scopes_eq_ok] at h
    obtain ⟨_, _, ⟨rfl, rfl⟩, h⟩ := h
    cases hr : c.scopes.resolve? id with
    | some v =>
      simp only [hr, bind_eq_ok, ite_eq_ok, throw_eq_ok, pure_eq_ok, false_and, exists_false,
        and_false, false_or] at h
      obtain ⟨harray, rfl, rfl⟩ := h
      exact ⟨.refl _, fun S hS => .plain htruth (hS.resolve id v hr) harray⟩
    | none =>
      simp only [hr, bind_eq_ok, scopes_eq_ok, ite_eq_ok, throw_eq_ok, pure_eq_ok, and_false,
        or_false] at h
      obtain ⟨_, _, ⟨rfl, rfl⟩, hsome, f, _, hf, rfl, rfl⟩ := h
      have hm := callee_moves hf
      refine ⟨hm, fun S hS => ?_⟩
      obtain ⟨g, hg, hgrow⟩ := callable_of_callee hf hS
      have hplain := ((hm.extends he).trans hS).plain id f hr (callee_eq_ok.mp hf).1
      rw [← hgrow.label]
      refine .function htruth hplain hg ?_
      rw [hgrow.parameters]
      exact List.length_eq_zero_iff.mp (callee_eq_ok.mp hf).2.2.1.symm

theorem indexed_eq_ok {s : Scopes} {id : String} {v : Variable} :
    s.indexed id = .ok v ↔ s.resolve? id = some v := by
  unfold Scopes.indexed
  cases s.resolve? id with
  | some w => simp only [Except.ok.injEq, Option.some.injEq]
  | none => exact ⟨nofun, nofun⟩

theorem index_translates {id : String} {i : Expr} (hi : i.Translates) :
    (Access.index (.name id) [i]).Translates := by
  intro c d code he h
  rw [Access.compile] at h
  simp only [bind_eq_ok, scopes_eq_ok, check_eq_ok, indexed_eq_ok] at h
  obtain ⟨_, _, ⟨rfl, rfl⟩, v, _, ⟨hr, rfl⟩, h⟩ := h
  cases ht : v.type with
  | array =>
    simp only [ht, bind_eq_ok, addressOf_eq_ok, pure_eq_ok] at h
    obtain ⟨_, _, ⟨hint, a, ha, rfl⟩, rfl, rfl⟩ := h
    obtain ⟨hm, hc⟩ := hi he ha
    refine ⟨hm, fun S hS => ?_⟩
    have hcS := (hm.extends he).trans hS
    exact .element (hcS.resolve id v hr) ht (hcS.infer hint) (hc S hS)
  | string =>
    simp only [ht, characterOf_eq_ok] at h
    obtain ⟨hint, a, ha, rfl⟩ := h
    obtain ⟨hm, hc⟩ := hi he ha
    refine ⟨hm, fun S hS => ?_⟩
    have hcS := (hm.extends he).trans hS
    exact .character (hcS.resolve id v hr) ht (hcS.infer hint) (hc S hS)
  | integer => simp only [ht, throw_eq_ok] at h
  | real => simp only [ht, throw_eq_ok] at h
  | boolean => simp only [ht, throw_eq_ok] at h
  | char => simp only [ht, throw_eq_ok] at h

/-- An access that has no code. -/
theorem access_untranslated {a : Access} (h : ∀ c code d, a.compile c ≠ .ok code d) :
    a.Translates :=
  fun _ _ _ _ hc => absurd hc (h _ _ _)

theorem arguments_nil (compile : List DataType → List Argument → Compile (List Line))
    (h : ∀ ts, compile ts [] = pure []) (ts : List DataType) :
    ArgumentsTranslate compile ts [] := by
  intro hlen c d code _ hc
  rw [h, pure_eq_ok] at hc
  obtain ⟨rfl, rfl⟩ := hc
  cases List.length_eq_zero_iff.mp hlen
  exact ⟨.refl _, fun S _ => .nil⟩

theorem compileBuiltin_cons {b : Builtin} {t : DataType} {ts : List DataType} {e : Expr}
    {arguments : List Argument} (ht : t ≠ .array) (he : e.Translates)
    (ha : ArgumentsTranslate (compileBuiltin b) ts arguments) :
    ArgumentsTranslate (compileBuiltin b) (t :: ts) (.value e :: arguments) := by
  intro hlen c d code hent h
  rw [compileBuiltin] at h
  simp only [bind_eq_ok, typeOf_eq_ok, check_eq_ok, expectType_eq_ok, pure_eq_ok] at h
  obtain ⟨u, _, ⟨hu, rfl⟩, _, _, ⟨rfl, rfl⟩, a, _, hcode, r, _, hrest, rfl, rfl⟩ := h
  obtain ⟨hm₁, hc₁⟩ := he hent hcode
  obtain ⟨hm₂, hc₂⟩ := ha (Nat.succ.inj hlen) (hm₁.entered hent) hrest
  have hm := hm₁.trans hm₂
  refine ⟨hm, fun S hS => ?_⟩
  have hcons := ArgumentsCode.cons (((hm.extends hent).trans hS).infer hu) (.same ht)
    (hc₁ S ((hm₂.extends (hm₁.entered hent)).trans hS)) (hc₂ S hS)
  simpa only [emitConversion, emit, Option.toList_none, List.map_nil, List.append_nil] using hcons

theorem compileArguments_cons {label : String} {position : Nat} {t : DataType}
    {ts : List DataType} {e : Expr} {arguments : List Argument} (he : e.Translates)
    (ha : ArgumentsTranslate (compileArguments label (position + 1)) ts arguments) :
    ArgumentsTranslate (compileArguments label position) (t :: ts) (.value e :: arguments) := by
  intro hlen c d code hent h
  rw [compileArguments] at h
  simp only [bind_eq_ok, typeOf_eq_ok, check_eq_ok, pure_eq_ok] at h
  obtain ⟨u, _, ⟨hu, rfl⟩, k, _, ⟨hk, rfl⟩, a, _, hcode, r, _, hrest, rfl, rfl⟩ := h
  obtain ⟨hm₁, hc₁⟩ := he hent hcode
  obtain ⟨hm₂, hc₂⟩ := ha (Nat.succ.inj hlen) (hm₁.entered hent) hrest
  have hm := hm₁.trans hm₂
  refine ⟨hm, fun S hS => ?_⟩
  exact .cons (((hm.extends hent).trans hS).infer hu) (.of_assignConversion hk)
    (hc₁ S ((hm₂.extends (hm₁.entered hent)).trans hS)) (hc₂ S hS)

theorem members_nil : MembersTranslate [] := by
  intro c d code _ h
  rw [compileMembers, pure_eq_ok] at h
  obtain ⟨rfl, rfl⟩ := h
  exact ⟨.refl _, fun S _ => .nil⟩

theorem members_single {e : Expr} {members : List Member} (he : e.Translates)
    (hm : MembersTranslate members) : MembersTranslate (.single e :: members) := by
  intro c d code hent h
  rw [compileMembers] at h
  simp only [bind_eq_ok, pure_eq_ok] at h
  obtain ⟨a, _, hcode, r, _, hrest, rfl, rfl⟩ := h
  obtain ⟨hm₁, hc₁⟩ := he hent hcode
  obtain ⟨hm₂, hc₂⟩ := hm (hm₁.entered hent) hrest
  refine ⟨hm₁.trans hm₂, fun S hS => .single (hc₁ S ?_) (hc₂ S hS)⟩
  exact (hm₂.extends (hm₁.entered hent)).trans hS

theorem members_range {low high : Expr} {members : List Member} (hl : low.Translates)
    (hh : high.Translates) (hm : MembersTranslate members) :
    MembersTranslate (.range low high :: members) := by
  intro c d code hent h
  rw [compileMembers] at h
  simp only [bind_eq_ok, pure_eq_ok] at h
  obtain ⟨a, _, hlow, b, _, hhigh, r, _, hrest, rfl, rfl⟩ := h
  obtain ⟨hm₁, hc₁⟩ := hl hent hlow
  obtain ⟨hm₂, hc₂⟩ := hh (hm₁.entered hent) hhigh
  obtain ⟨hm₃, hc₃⟩ := hm ((hm₁.trans hm₂).entered hent) hrest
  refine ⟨(hm₁.trans hm₂).trans hm₃, fun S hS => .range (hc₁ S ?_) (hc₂ S ?_) (hc₃ S hS)⟩
  · exact ((hm₂.trans hm₃).extends (hm₁.entered hent)).trans hS
  · exact (hm₃.extends ((hm₁.trans hm₂).entered hent)).trans hS

/-! ## all expressions -/

mutual

theorem Expr.translates : (e : Expr) → e.Translates
  | .access a => access_translates a.translates
  | .call _ arguments =>
    call_translates (fun b => builtin_translates b arguments (parameters_ne_array b))
      (fun label _ => arguments_translate label arguments)
  | .binary _ left right => binary_translates left.translates right.translates
  | .signed _ operand => signed_translates operand.translates
  | .power base _ => power_translates base.translates
  | .not operand => not_translates operand.translates
  | .constant k => constant_translates k
  | .set members => set_translates (members_translate members)

theorem Access.translates : (a : Access) → a.Translates
  | .name id => name_translates id
  | .index (.name _) [i] => index_translates i.translates
  | .index (.name _) [] => access_untranslated fun _ _ _ h => by cases h
  | .index (.name _) (_ :: _ :: _) => access_untranslated fun _ _ _ h => by cases h
  | .index (.index _ _) _ => access_untranslated fun _ _ _ h => by cases h
  | .index (.field _ _) _ => access_untranslated fun _ _ _ h => by cases h
  | .index (.deref _) _ => access_untranslated fun _ _ _ h => by cases h
  | .field _ _ => access_untranslated fun _ _ _ h => by cases h
  | .deref _ => access_untranslated fun _ _ _ h => by cases h

theorem builtin_translates (b : Builtin) : (arguments : List Argument) → {ts : List DataType} →
    (∀ t ∈ ts, t ≠ .array) → ArgumentsTranslate (compileBuiltin b) ts arguments
  | [], _, _ => arguments_nil _ (fun ts => by cases ts <;> rfl) _
  | _ :: _, [], _ => fun hlen => absurd hlen nofun
  | .value e :: arguments, t :: _, h =>
    compileBuiltin_cons (h t (List.mem_cons_self ..)) e.translates
      (builtin_translates b arguments fun u hu => h u (List.mem_cons_of_mem _ hu))
  | .wide _ _ :: _, _ :: _, _ => fun _ _ _ _ _ hc => absurd hc nofun
  | .precise _ _ _ :: _, _ :: _, _ => fun _ _ _ _ _ hc => absurd hc nofun

theorem arguments_translate (label : String) : (arguments : List Argument) → {position : Nat} →
    {ts : List DataType} → ArgumentsTranslate (compileArguments label position) ts arguments
  | [], _, _ => arguments_nil _ (fun ts => by cases ts <;> rfl) _
  | _ :: _, _, [] => fun hlen => absurd hlen nofun
  | .value e :: arguments, _, _ :: _ =>
    compileArguments_cons e.translates (arguments_translate label arguments)
  | .wide _ _ :: _, _, _ :: _ => fun _ _ _ _ _ hc => absurd hc nofun
  | .precise _ _ _ :: _, _, _ :: _ => fun _ _ _ _ _ hc => absurd hc nofun

theorem members_translate : (members : List Member) → MembersTranslate members
  | [] => members_nil
  | .single e :: members => members_single e.translates (members_translate members)
  | .range low high :: members =>
    members_range low.translates high.translates (members_translate members)

end

end PascalStack
