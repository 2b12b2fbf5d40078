import PascalStack.Proofs.Compiler.Functions
import PascalStack.Proofs.Forward.Identifiers
import PascalStack.Proofs.Spelling.Trees

/-!
# Pairs of compilations

Two compilations side by side, whose states differ in what is known of functions only.

* `Pairing`            how the entries of a function may differ, and what both compilations may do about it;
* `Pairing.Near`       two states that differ as the pairing says;
* `Pairing.Follows`    from such states, two steps fail both, or give the same and end in such states;
* `Expr.follows`       the compilation of an expression, if the pairing allows for its names.
-/

namespace PascalStack

/-! ## entries of functions -/

/-- Entries that calls cannot tell apart: that a function with a body was announced may be forgotten. -/
inductive Signature.Alike : Signature → Signature → Prop
  | refl (f : Signature) : Alike f f
  | settled {f : Signature} (hbody : f.hasBody = true) (hforward : f.directive = some .forward) :
      Alike f { f with directive := none }

namespace Signature.Alike
variable {f g : Signature}

theorem label (h : f.Alike g) : g.label = f.label := by cases h <;> rfl

theorem parameters (h : f.Alike g) : g.parameters = f.parameters := by cases h <;> rfl

theorem result (h : f.Alike g) : g.result = f.result := by cases h <;> rfl

theorem hasBody (h : f.Alike g) : g.hasBody = f.hasBody := by cases h <;> rfl

theorem external_iff (h : f.Alike g) : f.directive = some .external ↔ g.directive = some .external := by
  cases h with
  | refl => exact Iff.rfl
  | settled _ hforward => simp [hforward]

theorem open_iff (h : f.Alike g) : (f.directive = some .forward ∧ f.hasBody = false) ↔
    (g.directive = some .forward ∧ g.hasBody = false) := by
  cases h with
  | refl => exact Iff.rfl
  | settled hbody _ => simp [hbody]

theorem markCalled (h : f.Alike g) : f.markCalled.Alike g.markCalled := by
  cases h with
  | refl => exact .refl _
  | settled hbody hforward => exact .settled (f := f.markCalled) hbody hforward

theorem withBody (h : f.Alike g) : f.withBody.Alike g.withBody := by
  cases h with
  | refl => exact .refl _
  | settled hbody hforward => exact .settled (f := f.withBody) rfl hforward

theorem option_refl (a : Option Signature) : Option.Rel Alike a a := by
  cases a with
  | none => exact .none
  | some f => exact .some (.refl f)

end Signature.Alike

/-- Every entry of a table is found under some name. -/
def Table.Visible {α : Type} (t : Table α) : Prop :=
  ∀ key a, (key, a) ∈ t.entries → ∃ name, foldName name = key ∧ t.find? name = some a

namespace Table.Visible
variable {α : Type} {t : Table α} {name : String}

theorem insert (h : t.Visible) (hnew : t.find? name = none) (a : α) : (t.insert name a).Visible := by
  intro key b hmem
  rcases List.mem_cons.mp hmem with he | hmem
  · cases he
    exact ⟨name, rfl, by rw [find?_insert, if_pos rfl]⟩
  · obtain ⟨id, rfl, hid⟩ := h key b hmem
    refine ⟨id, rfl, ?_⟩
    rw [find?_insert, if_neg, hid]
    intro hfold
    rw [t.find?_congr hfold, hnew] at hid
    cases hid

theorem modify (h : t.Visible) (name : String) (f : α → α) : (t.modify name f).Visible := by
  intro key b hmem
  obtain ⟨⟨key', a⟩, hmem, he⟩ := List.mem_map.mp hmem
  obtain ⟨id, hkey, hid⟩ := h key' a hmem
  dsimp only at he
  split at he
  · rename_i hname
    cases he
    exact ⟨id, hkey, by rw [find?_modify, if_pos (hkey.trans hname), hid]; rfl⟩
  · rename_i hname
    cases he
    exact ⟨id, hkey, by rw [find?_modify, if_neg fun h => hname (hkey.symm.trans h), hid]⟩

end Table.Visible

/-! ## pairings -/

/-- How two states may differ, and the names and headings for which both may go on.  All names are in small
letters. -/
structure Pairing where
  /-- The entries of a function in the two states. -/
  Function : String → Option Signature → Option Signature → Prop
  /-- The announced headings of a function in the two states. -/
  Pending : String → Option Heading → Option Heading → Prop
  /-- The global variables of both states. -/
  Globals : Table Variable → Prop
  /-- The names that may be looked up, and declared as variables. -/
  Seen : String → Prop
  /-- The names under which functions may be declared. -/
  Declared : String → Prop
  /-- The names whose announced bodies may be given. -/
  Completed : String → Prop
  /-- The headings that may be announced. -/
  Announced : Heading → Prop
  seen {key : String} : Declared key → Seen key
  declared {key : String} : Completed key → Declared key
  alike {key : String} {a b : Option Signature} : Seen key → Function key a b → Option.Rel Signature.Alike a b
  called {key : String} {a b : Option Signature} : Seen key → Function key a b →
    Function key (a.map Signature.markCalled) (b.map Signature.markCalled)
  bodied {key : String} {a b : Option Signature} : Declared key → Function key a b →
    Function key (a.map Signature.withBody) (b.map Signature.withBody)
  inserted {key : String} (f : Signature) : Declared key → Function key (some f) (some f)
  pending {key : String} {a b : Option Heading} : Completed key → Pending key a b →
    b = a ∧ ∀ h ∈ a, ∀ id ∈ sectionIdentifiers h.parameters, Seen (foldName id)
  announced {h : Heading} : Declared (foldName h.name) → Announced h →
    Pending (foldName h.name) (some h) (some h)
  erased {key : String} : Declared key → Pending key none none
  globals {name : String} {t : Table Variable} (v : Variable) : Seen (foldName name) → Globals t →
    Globals (t.insert name v)

namespace Pairing
variable (P : Pairing)

def Sees (names : List String) : Prop := ∀ name ∈ names, P.Seen (foldName name)

/-- Names in scope that differ in the entries of functions. -/
structure Names (s t : Scopes) : Prop where
  same : t = { s with functions := t.functions }
  functions : ∀ name, P.Function (foldName name) (s.function? name) (t.function? name)
  left : s.functions.Visible
  right : t.functions.Visible
  globals : P.Globals s.globals

/-- States that differ in the entries and headings of functions. -/
structure Near (c d : Compiler) : Prop where
  scopes : P.Names c.scopes d.scopes
  same : d = { c with scopes := d.scopes, pending := d.pending }
  pending : ∀ name, P.Pending (foldName name) (c.pending.find? name) (d.pending.find? name)

/-- Two steps have failed both, or have given the same. -/
inductive Ends {α : Type} : EStateM.Result SemanticError Compiler α → EStateM.Result SemanticError Compiler α → Prop
  | ok {a : α} {c d : Compiler} (h : P.Near c d) : Ends (.ok a c) (.ok a d)
  | error {e e' : SemanticError} {c d : Compiler} : Ends (.error e c) (.error e' d)

/-- From states that are near to each other, two steps fail both, or give the same and end in such states. -/
def Follows {α : Type} (x y : Compile α) : Prop := ∀ c d, P.Near c d → P.Ends (x c) (y d)

variable {P}

/-- Two steps, and two more after them, under another pairing. -/
theorem Ends.bind {Q : Pairing} {α β : Type} {x y : Compile α} {k l : α → Compile β} {c d : Compiler}
    (h : P.Ends (x c) (y d)) (hk : ∀ a c d, P.Near c d → Q.Ends (k a c) (l a d)) :
    Q.Ends ((x >>= k) c) ((y >>= l) d) := by
  show Q.Ends (EStateM.bind x k c) (EStateM.bind y l d)
  unfold EStateM.bind
  generalize x c = r, y d = r' at h
  cases h with
  | ok hnear => exact hk _ _ _ hnear
  | error => exact .error

section
variable {a b : List String} {name : String}

theorem Sees.left (h : P.Sees (a ++ b)) : P.Sees a := fun n hn => h n (List.mem_append_left _ hn)

theorem Sees.right (h : P.Sees (a ++ b)) : P.Sees b := fun n hn => h n (List.mem_append_right _ hn)

theorem Sees.head (h : P.Sees (name :: b)) : P.Seen (foldName name) := h name (List.mem_cons_self ..)

theorem Sees.tail (h : P.Sees (name :: b)) : P.Sees b := fun n hn => h n (List.mem_cons_of_mem _ hn)

end

/-! ## names in scope -/

namespace Names
variable {s t : Scopes} {name : String}

theorem resolve? (h : P.Names s t) (id : String) : t.resolve? id = s.resolve? id := by
  rw [h.same]
  rfl

theorem indexed (h : P.Names s t) (id : String) : t.indexed id = s.indexed id := by
  rw [h.same]
  rfl

theorem function? (h : P.Names s t) (hseen : P.Seen (foldName name)) :
    Option.Rel Signature.Alike (s.function? name) (t.function? name) :=
  P.alike hseen (h.functions name)

theorem isSome_function? (h : P.Names s t) (hseen : P.Seen (foldName name)) :
    (t.function? name).isSome = (s.function? name).isSome := by
  have hrel := h.function? hseen
  generalize s.function? name = a, t.function? name = b at hrel
  cases hrel <;> rfl

/-- A change of the entry of one function. -/
theorem modifyFunction (h : P.Names s t) {u : Signature → Signature}
    (hu : P.Function (foldName name) ((s.function? name).map u) ((t.function? name).map u)) :
    P.Names (s.modifyFunction name u) (t.modifyFunction name u) where
  same := by
    show { t with functions := _ } = { s with functions := _ }
    rw [h.same]
    rfl
  functions := by
    intro id
    show P.Function _ ((s.functions.modify name u).find? id) ((t.functions.modify name u).find? id)
    rw [Table.find?_modify, Table.find?_modify]
    by_cases hid : foldName id = foldName name
    · rw [if_pos hid, if_pos hid, hid, s.functions.find?_congr hid, t.functions.find?_congr hid]
      exact hu
    · rw [if_neg hid, if_neg hid]
      exact h.functions id
  left := h.left.modify name u
  right := h.right.modify name u
  globals := h.globals

theorem markCalled (h : P.Names s t) (hseen : P.Seen (foldName name)) :
    P.Names (s.modifyFunction name Signature.markCalled) (t.modifyFunction name Signature.markCalled) :=
  h.modifyFunction (P.called hseen (h.functions name))

theorem elementType (h : P.Names s t) (id : String) :
    (do Scopes.elementType id (← t.indexed id)) = (do Scopes.elementType id (← s.indexed id)) := by
  rw [h.indexed]

theorem access (h : P.Names s t) {a : Access} (ha : P.Sees a.identifiers) : t.access a = s.access a := by
  cases a using Access.byForm with
  | name id =>
    have hrel := h.function? ha.head
    rw [Scopes.access, Scopes.access, h.resolve? id]
    generalize s.function? id = f, t.function? id = g at hrel
    cases hrel with
    | some hfg => simp only [hfg.result]
    | none => rfl
  | element id i => exact h.elementType id
  | _ => rfl

theorem callType (h : P.Names s t) (hseen : P.Seen (foldName name)) : t.callType name = s.callType name := by
  have hrel := h.function? hseen
  unfold Scopes.callType
  generalize s.function? name = f, t.function? name = g at hrel
  cases hrel with
  | some hfg => simp only [hfg.result]
  | none => rfl

/-- The type of an expression is the same in both. -/
theorem infer (h : P.Names s t) (e : Expr) (he : P.Sees e.identifiers) : t.infer e = s.infer e := by
  fun_induction s.infer e with
  | case1 c => rfl
  | case2 a => exact h.access he
  | case3 name arguments => exact h.callType he.head
  | case4 op left right hop => rw [Scopes.infer, if_pos hop]
  | case5 op left right hop hl hr => rw [Scopes.infer, if_neg hop, hl he.left, hr he.right]
  | case6 sign operand ih => exact ih he
  | case7 base exponent ih => exact ih he.left
  | case8 operand => rfl
  | case9 => rfl
  | case10 e members ih => exact ih he.left
  | case11 low high members ih => exact ih he.left.left

end Names

/-! ## steps -/

namespace Follows
variable {α β : Type} {x y : Compile α} {k l : α → Compile β}

theorem pure (a : α) : P.Follows (Pure.pure a) (Pure.pure a) := fun _ _ h => .ok h

theorem throw (e e' : SemanticError) : P.Follows (MonadExcept.throw e : Compile α) (MonadExcept.throw e') :=
  fun _ _ _ => .error

theorem bind (h : P.Follows x y) (hk : ∀ a, P.Follows (k a) (l a)) : P.Follows (x >>= k) (y >>= l) :=
  fun c d hcd => (h c d hcd).bind hk

/-- What a pairing says of single states is kept by steps that it allows for. -/
theorem self (h : P.Follows x x) {c d : Compiler} (hc : P.Near c c) {a : α} (hx : x c = .ok a d) : P.Near d d := by
  have hends := h c c hc
  rw [hx] at hends
  cases hends with
  | ok hnear => exact hnear

/-- Two compilations that start with the same step. -/
theorem self_bind {Q : Pairing} (h : P.Follows x x) {c : Compiler} (hc : P.Near c c)
    (hk : ∀ a d, P.Near d d → Q.Ends (k a d) (l a d)) : Q.Ends ((x >>= k) c) ((x >>= l) c) := by
  show Q.Ends (EStateM.bind x k c) (EStateM.bind x l c)
  unfold EStateM.bind
  cases hx : x c with
  | ok a d => exact hk a d (h.self hc hx)
  | error e d => exact .error

theorem check (e : Except SemanticError α) : P.Follows (Compile.check e) (Compile.check e) := by
  cases e with
  | ok a => exact .pure a
  | error e => exact .throw e e

theorem checked {e : Except SemanticError α} (h : ∀ a, e = .ok a → P.Follows (k a) (l a)) :
    P.Follows (Compile.check e >>= k) (Compile.check e >>= l) := by
  cases e with
  | ok a => exact h a rfl
  | error e => exact fun _ _ _ => .error

theorem get {k l : Compiler → Compile β} (h : ∀ c d, P.Near c d → P.Follows (k c) (l d)) :
    P.Follows (MonadState.get >>= k) (MonadState.get >>= l) :=
  fun c d hcd => h c d hcd c d hcd

theorem scopes {k l : Scopes → Compile β} (h : ∀ s t, P.Names s t → P.Follows (k s) (l t)) :
    P.Follows (Compile.scopes >>= k) (Compile.scopes >>= l) :=
  fun c d hcd => h _ _ hcd.scopes c d hcd

theorem modify {g : Compiler → Compiler} (h : ∀ c d, P.Near c d → P.Near (g c) (g d)) :
    P.Follows (modify g) (modify g) :=
  fun c d hcd => .ok (h c d hcd)

theorem setScopes {s t : Scopes} (h : P.Names s t) : P.Follows (Compile.setScopes s) (Compile.setScopes t) := by
  intro c d hcd
  refine .ok ⟨h, ?_, hcd.pending⟩
  show { d with scopes := t } = _
  rw [hcd.same]

theorem ite {p : Prop} [Decidable p] {x' y' : Compile α} (h : P.Follows x y) (h' : P.Follows x' y') :
    P.Follows (if p then x else x') (if p then y else y') := by
  split
  · exact h
  · exact h'

/-- A condition under which both steps fail. -/
theorem guard {p q : Prop} [Decidable p] [Decidable q] {e e' : SemanticError} {k l : Unit → Compile α}
    (hpq : p ↔ q) (h : P.Follows (k ()) (l ())) :
    P.Follows (if p then MonadExcept.throw e >>= k else k ()) (if q then MonadExcept.throw e' >>= l else l ()) := by
  by_cases hp : p
  · rw [if_pos hp, if_pos (hpq.mp hp)]
    exact fun _ _ _ => .error
  · rw [if_neg hp, if_neg fun hq => hp (hpq.mpr hq)]
    exact h

theorem typeOf {e : Expr} (he : P.Sees e.identifiers) : P.Follows (Compile.typeOf e) (Compile.typeOf e) := by
  refine .scopes fun s t h => ?_
  rw [h.infer e he]
  exact .check _

/-- The functions that two calls find are alike. -/
theorem callee {name : String} (count : Nat) {k l : Signature → Compile β} (hseen : P.Seen (foldName name))
    (hk : ∀ f g, f.Alike g → P.Follows (k f) (l g)) :
    P.Follows (Compile.callee name count >>= k) (Compile.callee name count >>= l) := by
  unfold Compile.callee
  rw [bind_assoc, bind_assoc]
  refine .scopes fun s t h => ?_
  have hrel := h.function? hseen
  generalize s.function? name = a, t.function? name = b at hrel
  cases hrel with
  | none => exact .bind (.throw _ _) fun f => hk f f (.refl f)
  | @some f g hfg =>
    have hrest : P.Follows
        ((do
          Compile.setScopes ((← Compile.scopes).modifyFunction name Signature.markCalled)
          if count ≠ f.parameters.length then
            MonadExcept.throw (.arityMismatch f.label f.parameters.length count)
          return f) >>= k)
        ((do
          Compile.setScopes ((← Compile.scopes).modifyFunction name Signature.markCalled)
          if count ≠ g.parameters.length then
            MonadExcept.throw (.arityMismatch g.label g.parameters.length count)
          return g) >>= l) := by
      rw [bind_assoc, bind_assoc, hfg.parameters]
      refine .scopes fun s t h => ?_
      rw [bind_assoc, bind_assoc]
      refine .bind (.setScopes (h.markCalled hseen)) fun _ => ?_
      split
      · exact fun _ _ _ => .error
      · exact hk f g hfg
    by_cases hext : f.directive = some .external
    · simp only [if_pos hext, if_pos (hfg.external_iff.mp hext)]
      exact fun _ _ _ => .error
    · simp only [if_neg hext, if_neg fun h => hext (hfg.external_iff.mpr h)]
      exact hrest

end Follows

end Pairing

/-! ## expressions -/

open Compile

section
variable {P : Pairing}

theorem checkArity_follows (b : Builtin) (count : Nat) : P.Follows (checkArity b count) (checkArity b count) :=
  .ite (.pure _) (.throw _ _)

theorem addressOf_follows (v : Variable) {i : Expr} (hi : P.Sees i.identifiers)
    (h : P.Follows i.compile i.compile) : P.Follows (addressOf v i i.compile) (addressOf v i i.compile) :=
  .bind (.typeOf hi) fun _ => .bind (.check _) fun _ => .bind h fun _ => .pure _

theorem characterOf_follows (v : Variable) {i : Expr} (hi : P.Sees i.identifiers)
    (h : P.Follows i.compile i.compile) : P.Follows (characterOf v i i.compile) (characterOf v i i.compile) :=
  .bind (.typeOf hi) fun _ => .bind (.check _) fun _ => .bind h fun _ => .pure _

theorem call_follows {name : String} {arguments : List Argument} (hseen : P.Seen (foldName name))
    (hb : ∀ b ts, P.Follows (compileBuiltin b ts arguments) (compileBuiltin b ts arguments))
    (ha : ∀ label k ts, P.Follows (compileArguments label k ts arguments) (compileArguments label k ts arguments)) :
    P.Follows (Expr.call name arguments).compile (Expr.call name arguments).compile := by
  rw [Expr.compile]
  cases Builtin.ofName? name with
  | some b => exact .ite (.bind (checkArity_follows b _) fun _ => .bind (hb b _) fun _ => .pure _) (.throw _ _)
  | none =>
    refine .callee _ hseen fun f g hfg => ?_
    rw [hfg.label, hfg.parameters]
    exact .bind (ha f.label 1 _) fun _ => .pure _

theorem name_follows {id : String} (hseen : P.Seen (foldName id)) :
    P.Follows (Access.name id).compile (Access.name id).compile := by
  rw [Access.compile]
  cases truthName? id with
  | some b => exact .pure _
  | none =>
    refine .scopes fun s t h => ?_
    rw [h.resolve? id]
    cases s.resolve? id with
    | some v => exact .guard Iff.rfl (.pure _)
    | none =>
      refine .scopes fun s t h => ?_
      rw [h.isSome_function? hseen]
      refine .ite (.callee 0 hseen fun f g hfg => ?_) (.throw _ _)
      rw [hfg.label]
      exact .pure _

theorem index_follows {id : String} {i : Expr} (hi : P.Sees i.identifiers) (h : P.Follows i.compile i.compile) :
    P.Follows (Access.index (.name id) [i]).compile (Access.index (.name id) [i]).compile := by
  rw [Access.compile]
  refine .scopes fun s t hst => ?_
  rw [hst.indexed]
  refine .bind (.check _) fun v => ?_
  cases v.type with
  | array => exact .bind (addressOf_follows v hi h) fun _ => .pure _
  | string => exact characterOf_follows v hi h
  | _ => exact .throw _ _

mutual

theorem Expr.follows : (e : Expr) → P.Sees e.identifiers → P.Follows e.compile e.compile
  | .access a, h => a.follows h
  | .call _ arguments, h =>
    call_follows h.head (compileBuiltin_follows arguments h.tail) (compileArguments_follows arguments h.tail)
  | .binary _ left right, h =>
    .bind (.typeOf h.left) fun _ => .bind (.typeOf h.right) fun _ => .bind (.check _) fun _ =>
      .bind (left.follows h.left) fun _ => .bind (right.follows h.right) fun _ => .pure _
  | .signed _ operand, h =>
    .bind (.typeOf h) fun _ => .bind (.check _) fun _ => .bind (operand.follows h) fun _ => .pure _
  | .power base exponent, h =>
    .bind (.check (exponentOf exponent)) fun _ => .bind (.typeOf h.left) fun _ => .bind (.check _) fun _ =>
      .ite (.pure _) (.bind (base.follows h.left) fun _ => .pure _)
  | .not operand, h =>
    .bind (.typeOf h) fun _ => .bind (.check _) fun _ => .bind (operand.follows h) fun _ => .pure _
  | .constant _, _ => .pure _
  | .set members, h => compileMembers_follows members h

theorem Access.follows : (a : Access) → P.Sees a.identifiers → P.Follows a.compile a.compile
  | .name _, h => name_follows h.head
  | .index (.name _) [i], h => index_follows h.right.left (i.follows h.right.left)
  | .index (.name _) [], _ => .throw _ _
  | .index (.name _) (_ :: _ :: _), _ => .throw _ _
  | .index (.index _ _) _, _ => .throw _ _
  | .index (.field _ _) _, _ => .throw _ _
  | .index (.deref _) _, _ => .throw _ _
  | .field _ _, _ => .throw _ _
  | .deref _, _ => .throw _ _

theorem compileBuiltin_follows : (arguments : List Argument) → P.Sees (argumentIdentifiers arguments) →
    (b : Builtin) → (ts : List DataType) → P.Follows (compileBuiltin b ts arguments) (compileBuiltin b ts arguments)
  | [], _, _, [] => .pure _
  | [], _, _, _ :: _ => .pure _
  | _ :: _, _, _, [] => .pure _
  | .value e :: arguments, h, b, _ :: ts =>
    .bind (.typeOf h.left) fun _ => .bind (.check _) fun _ => .bind (e.follows h.left) fun _ =>
      .bind (compileBuiltin_follows arguments h.right b ts) fun _ => .pure _
  | .wide _ _ :: _, _, _, _ :: _ => .throw _ _
  | .precise _ _ _ :: _, _, _, _ :: _ => .throw _ _

theorem compileArguments_follows : (arguments : List Argument) → P.Sees (argumentIdentifiers arguments) →
    (label : String) → (k : Nat) → (ts : List DataType) →
    P.Follows (compileArguments label k ts arguments) (compileArguments label k ts arguments)
  | [], _, _, _, [] => .pure _
  | [], _, _, _, _ :: _ => .pure _
  | _ :: _, _, _, _, [] => .pure _
  | .value e :: arguments, h, label, k, _ :: ts =>
    .bind (.typeOf h.left) fun _ => .bind (.check _) fun _ => .bind (e.follows h.left) fun _ =>
      .bind (compileArguments_follows arguments h.right label (k + 1) ts) fun _ => .pure _
  | .wide _ _ :: _, _, _, _, _ :: _ => .throw _ _
  | .precise _ _ _ :: _, _, _, _, _ :: _ => .throw _ _

theorem compileMembers_follows : (members : List Member) → P.Sees (memberIdentifiers members) →
    P.Follows (compileMembers members) (compileMembers members)
  | [], _ => .pure _
  | .single e :: members, h =>
    .bind (e.follows h.left) fun _ => .bind (compileMembers_follows members h.right) fun _ => .pure _
  | .range low high :: members, h =>
    .bind (low.follows h.left.left) fun _ => .bind (high.follows h.left.right) fun _ =>
      .bind (compileMembers_follows members h.right) fun _ => .pure _

end

end

end PascalStack
