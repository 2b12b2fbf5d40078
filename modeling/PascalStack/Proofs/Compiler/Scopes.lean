import PascalStack.Proofs.Compiler.Inversion

/-!
# How names in scope change

* `Table.find?_insert`, …      looking names up after a change;
* `Scopes.Extends`             what is known of a name stays known;
* `Scopes.Extends.infer`       so types stay as they are;
* `Scopes.Uses`                what the code of statements does to the names in scope: functions are marked
                               as called, and control variables are declared;
* `Scopes.Uses.extends`, `Scopes.Uses.elsewhere`   this keeps names, in the function at hand and in others;
* `Scopes.Allocates`           which slots have been reserved between two states, and for what.
-/

namespace PascalStack

namespace Table
variable {α : Type} {t : Table α} {name id : String}

theorem find?_insert (t : Table α) (name id : String) (a : α) :
    (t.insert name a).find? id = if foldName id = foldName name then some a else t.find? id := by
  show List.lookup (foldName id) ((foldName name, a) :: t.entries) = _
  rw [List.lookup_cons]
  by_cases h : foldName id = foldName name
  · rw [if_pos h, h, beq_self_eq_true]
  · rw [if_neg h, beq_false_of_ne h]
    rfl

theorem find?_modify (t : Table α) (name id : String) (f : α → α) :
    (t.modify name f).find? id
      = if foldName id = foldName name then (t.find? id).map f else t.find? id := by
  obtain ⟨entries⟩ := t
  show List.lookup (foldName id) (entries.map _) = _
  unfold find?
  induction entries with
  | nil => split <;> rfl
  | cons e es ih =>
    obtain ⟨key, a⟩ := e
    rw [List.map_cons, List.lookup_cons, List.lookup_cons]
    by_cases hk : key = foldName name
    · simp only [hk, if_true] at ih ⊢
      by_cases h : foldName id = foldName name
      · simp only [h, beq_self_eq_true, if_true, Option.map_some]
      · simp only [beq_false_of_ne h, h, if_false] at ih ⊢
        exact ih
    · simp only [hk, if_false]
      cases hb : foldName id == key with
      | true =>
        have h : foldName id ≠ foldName name := fun h => hk (h ▸ (beq_iff_eq.mp hb).symm)
        simp only [h, if_false]
      | false => exact ih

theorem find?_erase (t : Table α) (name id : String) :
    (t.erase name).find? id = if foldName id = foldName name then none else t.find? id := by
  obtain ⟨entries⟩ := t
  show List.lookup (foldName id) (entries.filter _) = _
  unfold find?
  induction entries with
  | nil => split <;> rfl
  | cons e es ih =>
    obtain ⟨key, a⟩ := e
    rw [List.filter_cons, List.lookup_cons]
    by_cases hk : key = foldName name
    · simp only [hk, ne_eq, not_true_eq_false, decide_false, Bool.false_eq_true, if_false]
      rw [ih]
      by_cases h : foldName id = foldName name
      · simp only [h, if_true]
      · simp only [beq_false_of_ne h, h, if_false]
    · simp only [ne_eq, hk, not_false_eq_true, decide_true, if_true]
      rw [List.lookup_cons]
      cases hb : foldName id == key with
      | true =>
        have h : foldName id ≠ foldName name := fun h => hk (h ▸ (beq_iff_eq.mp hb).symm)
        simp only [h, if_false]
      | false => exact ih

theorem find?_congr (t : Table α) (h : foldName id = foldName name) : t.find? id = t.find? name := by
  unfold find?
  rw [h]

theorem contains_eq_false : t.contains name = false ↔ t.find? name = none := by
  unfold contains
  rw [Option.isSome_eq_false_iff, Option.isNone_iff_eq_none]

theorem contains_eq_true : t.contains name = true ↔ ∃ a, t.find? name = some a := by
  unfold contains
  rw [Option.isSome_iff_exists]

theorem find?_empty : (empty : Table α).find? name = none := rfl

theorem mem_values {a : α} (h : t.find? name = some a) : a ∈ t.values := by
  obtain ⟨l₁, l₂, he, _⟩ := List.lookup_eq_some_iff.mp h
  unfold values
  rw [he]
  simp

end Table

/-- What is known of a function only grows: it may come to be called, or get its body. -/
structure Signature.Grows (f g : Signature) : Prop where
  label : g.label = f.label
  parameters : g.parameters = f.parameters
  result : g.result = f.result
  directive : g.directive = f.directive
  hasBody : f.hasBody = true → g.hasBody = true
  called : f.called = true → g.called = true

theorem Signature.Grows.refl (f : Signature) : f.Grows f := ⟨rfl, rfl, rfl, rfl, id, id⟩

theorem Signature.Grows.trans {f g h : Signature} (a : f.Grows g) (b : g.Grows h) : f.Grows h :=
  ⟨b.label.trans a.label, b.parameters.trans a.parameters, b.result.trans a.result,
    b.directive.trans a.directive, b.hasBody ∘ a.hasBody, b.called ∘ a.called⟩

def Signature.markCalled (f : Signature) : Signature := { f with called := true }

theorem Signature.grows_markCalled (f : Signature) : f.Grows f.markCalled :=
  ⟨rfl, rfl, rfl, rfl, id, fun _ => rfl⟩

namespace Scopes

/-- Variables and functions that are known in `s` are known in `t`, and no function name has become
a variable. -/
structure Extends (s t : Scopes) : Prop where
  resolve : ∀ id v, s.resolve? id = some v → t.resolve? id = some v
  function : ∀ id f, s.function? id = some f → ∃ g, t.function? id = some g ∧ f.Grows g
  plain : ∀ id f, s.resolve? id = none → s.function? id = some f → t.resolve? id = none

theorem Extends.refl (s : Scopes) : s.Extends s :=
  ⟨fun _ _ h => h, fun _ f h => ⟨f, h, .refl f⟩, fun _ _ h _ => h⟩

theorem Extends.trans {s t u : Scopes} (a : s.Extends t) (b : t.Extends u) : s.Extends u := by
  refine ⟨fun id v h => b.resolve id v (a.resolve id v h), fun id f h => ?_, fun id f hr h => ?_⟩
  · obtain ⟨g, hg, hfg⟩ := a.function id f h
    obtain ⟨k, hk, hgk⟩ := b.function id g hg
    exact ⟨k, hk, hfg.trans hgk⟩
  · obtain ⟨g, hg, _⟩ := a.function id f h
    exact b.plain id g (a.plain id f hr h) hg

section
variable {s t : Scopes}

theorem Extends.access (h : s.Extends t) {a : Access} {type : DataType}
    (ha : s.access a = .ok type) : t.access a = .ok type := by
  unfold Scopes.access at ha ⊢
  split at ha
  · rename_i id
    split at ha
    · rename_i htruth
      rw [if_pos htruth]
      exact ha
    · rename_i htruth
      rw [if_neg htruth]
      cases hr : s.resolve? id with
      | some v =>
        rw [hr] at ha
        rw [h.resolve id v hr]
        exact ha
      | none =>
        rw [hr] at ha
        cases hf : s.function? id with
        | some f =>
          rw [hf] at ha
          obtain ⟨g, hg, hfg⟩ := h.function id f hf
          rw [h.plain id f hr hf, hg]
          simpa only [hfg.result] using ha
        | none => rw [hf] at ha; cases ha
  · rename_i id i
    unfold indexed at ha ⊢
    cases hr : s.resolve? id with
    | some v => rw [hr] at ha; rw [h.resolve id v hr]; exact ha
    | none => rw [hr] at ha; cases ha
  · cases ha
  · cases ha
  · cases ha

theorem Extends.callType (h : s.Extends t) {name : String} {type : DataType}
    (hc : s.callType name = .ok type) : t.callType name = .ok type := by
  unfold Scopes.callType at hc ⊢
  cases hb : Builtin.ofName? name with
  | some b => rw [hb] at hc; exact hc
  | none =>
    rw [hb] at hc
    cases hf : s.function? name with
    | none => rw [hf] at hc; cases hc
    | some f =>
      rw [hf] at hc
      obtain ⟨g, hg, hfg⟩ := h.function name f hf
      rw [hg]
      simpa only [hfg.result] using hc

theorem except_bind_eq_ok {ε α β : Type} {x : Except ε α} {f : α → Except ε β} {b : β} :
    x >>= f = .ok b ↔ ∃ a, x = .ok a ∧ f a = .ok b := by
  cases x with
  | ok a => exact ⟨fun h => ⟨a, rfl, h⟩, fun ⟨_, h, hf⟩ => by cases h; exact hf⟩
  | error e => exact ⟨nofun, nofun⟩

/-- The type of an expression does not change. -/
theorem Extends.infer (h : s.Extends t) : ∀ {e : Expr} {type : DataType},
    s.infer e = .ok type → t.infer e = .ok type
  | .constant _, _, he => he
  | .access _, _, he => h.access he
  | .call _ _, _, he => h.callType he
  | .binary op left right, type, he => by
    rw [Scopes.infer] at he ⊢
    split at he
    · rename_i hop
      rw [if_pos hop]
      exact he
    · rename_i hop
      rw [if_neg hop]
      obtain ⟨l, hl, he⟩ := except_bind_eq_ok.mp he
      obtain ⟨r, hr, he⟩ := except_bind_eq_ok.mp he
      rw [h.infer hl, h.infer hr]
      exact he
  | .signed _ operand, _, he => h.infer (e := operand) he
  | .power base _, _, he => h.infer (e := base) he
  | .not _, _, he => he
  | .set [], _, he => he
  | .set (.single e :: _), _, he => h.infer (e := e) he
  | .set (.range low _ :: _), _, he => h.infer (e := low) he

end

/-! ## changes -/

/-- The function at hand has a table of variables. -/
def Entered (s : Scopes) : Prop := ∀ g, s.current = some g → ∃ t, s.locals.find? g = some t

/-- The scopes as they are seen from inside a function. -/
def inside (s : Scopes) (label : String) : Scopes := { s with current := some label }

/-- A function other than the one at hand. -/
def Apart (s : Scopes) (label : String) : Prop := ∀ g, s.current = some g → foldName label ≠ foldName g

section
variable {s t : Scopes} {name id label : String} {v : Variable}

theorem resolve?_eq (s : Scopes) (id : String) :
    s.resolve? id = ((s.localTable.find? id).or (s.globals.find? id)) := by
  unfold resolve?
  cases s.localTable.find? id <;> rfl

theorem localTable_some {g : String} {tbl : Table Variable} (hc : s.current = some g)
    (ht : s.locals.find? g = some tbl) : s.localTable = tbl := by
  unfold localTable
  rw [hc, Option.bind_some, ht, Option.getD_some]

theorem localTable_none (hc : s.current = none) : s.localTable = .empty := by
  unfold localTable
  rw [hc]
  rfl

/-- What a declaration requires and does. -/
theorem declare_eq_ok : s.declare name v = .ok t ↔
    s.function? name = none ∧ s.currentTable.find? name = none ∧
      ((∃ g, s.current = some g ∧
          t = { s with locals := s.locals.modify g fun tbl => tbl.insert name v }) ∨
        (s.current = none ∧ t = { s with globals := s.globals.insert name v })) := by
  unfold declare
  have hcontains : (s.functions.contains name || s.currentTable.contains name) = false ↔
      s.function? name = none ∧ s.currentTable.find? name = none := by
    rw [Bool.or_eq_false_iff, Table.contains_eq_false, Table.contains_eq_false]
    rfl
  cases hb : (s.functions.contains name || s.currentTable.contains name) with
  | true =>
    constructor
    · exact nofun
    · rintro ⟨hf, ht, _⟩
      rw [hcontains.mpr ⟨hf, ht⟩] at hb
      cases hb
  | false =>
    obtain ⟨hf, ht⟩ := hcontains.mp hb
    simp only [hf, ht, Bool.false_eq_true, if_false, true_and]
    cases hc : s.current with
    | some g =>
      constructor
      · intro h; cases h; exact .inl ⟨g, rfl, rfl⟩
      · rintro (⟨g', hg, rfl⟩ | ⟨hg, _⟩)
        · cases hg; rfl
        · cases hg
    | none =>
      constructor
      · intro h; cases h; exact .inr ⟨rfl, rfl⟩
      · rintro (⟨g', hg, _⟩ | ⟨_, rfl⟩)
        · cases hg
        · rfl

/-- A declaration adds one name to the names in sight. -/
theorem resolve?_declare (he : s.Entered) (h : s.declare name v = .ok t) (id : String) :
    t.resolve? id = if foldName id = foldName name then some v else s.resolve? id := by
  obtain ⟨_, _, ⟨g, hg, rfl⟩ | ⟨hc, rfl⟩⟩ := declare_eq_ok.1 h
  · obtain ⟨tbl, htbl⟩ := he g hg
    have hnew : ({ s with locals := s.locals.modify g fun tbl => tbl.insert name v } :
        Scopes).localTable = tbl.insert name v := by
      refine localTable_some hg ?_
      show (s.locals.modify g _).find? g = _
      rw [Table.find?_modify, if_pos rfl, htbl, Option.map_some]
    rw [resolve?_eq, resolve?_eq, hnew, localTable_some hg htbl, Table.find?_insert]
    split
    · rfl
    · rfl
  · rw [resolve?_eq, resolve?_eq, localTable_none hc]
    show (Table.find? _ _).or ((s.globals.insert name v).find? id) = _
    have hnew : ({ s with globals := s.globals.insert name v } : Scopes).localTable = .empty :=
      localTable_none hc
    rw [hnew, Table.find?_insert, Table.find?_empty, Option.or_eq_right_of_none rfl,
      Option.or_eq_right_of_none rfl]

theorem declare_function? (h : s.declare name v = .ok t) (id : String) :
    t.function? id = s.function? id := by
  obtain ⟨_, _, ⟨g, hg, rfl⟩ | ⟨hc, rfl⟩⟩ := declare_eq_ok.1 h <;> rfl

theorem declare_current (h : s.declare name v = .ok t) : t.current = s.current := by
  obtain ⟨_, _, ⟨g, hg, rfl⟩ | ⟨hc, rfl⟩⟩ := declare_eq_ok.1 h <;> rfl

theorem declare_nextSlot (h : s.declare name v = .ok t) : t.nextSlot = s.nextSlot := by
  obtain ⟨_, _, ⟨g, hg, rfl⟩ | ⟨hc, rfl⟩⟩ := declare_eq_ok.1 h <;> rfl

theorem declare_entered (he : s.Entered) (h : s.declare name v = .ok t) : t.Entered := by
  intro g hg
  rw [declare_current h] at hg
  obtain ⟨tbl, htbl⟩ := he g hg
  obtain ⟨_, _, ⟨g', hg', rfl⟩ | ⟨hc, rfl⟩⟩ := declare_eq_ok.1 h
  · refine ⟨if foldName g = foldName g' then tbl.insert name v else tbl, ?_⟩
    show (s.locals.modify g' _).find? g = _
    rw [Table.find?_modify, htbl]
    split <;> rfl
  · exact ⟨tbl, htbl⟩

/-- A new name keeps the others. -/
theorem declare_extends (he : s.Entered) (hr : s.resolve? name = none)
    (h : s.declare name v = .ok t) : s.Extends t := by
  have hf := (declare_eq_ok.1 h).1
  have hres : ∀ id, foldName id = foldName name → s.resolve? id = s.resolve? name := by
    intro id hid
    rw [resolve?_eq, resolve?_eq, Table.find?_congr _ hid, Table.find?_congr _ hid]
  refine ⟨fun id w hw => ?_, fun id f hf => ⟨f, ?_, .refl f⟩, fun id f hnone hid => ?_⟩
  · rw [resolve?_declare he h]
    split
    · rename_i hid
      rw [hres id hid, hr] at hw
      cases hw
    · exact hw
  · rw [declare_function? h]
    exact hf
  · rw [resolve?_declare he h]
    split
    · rename_i hname
      have : s.function? id = s.function? name := Table.find?_congr _ hname
      rw [this, hf] at hid
      cases hid
    · exact hnone

/-- A declaration is not seen in another function, unless it is global and new there. -/
theorem declare_elsewhere (ha : s.Apart label) (h : s.declare name v = .ok t) :
    (s.inside label).Extends (t.inside label) := by
  obtain ⟨hf, hcur, ⟨g, hg, rfl⟩ | ⟨hc, rfl⟩⟩ := declare_eq_ok.1 h
  · have hsame : ∀ id, (({ s with locals := s.locals.modify g fun tbl => tbl.insert name v } :
        Scopes).inside label).resolve? id = (s.inside label).resolve? id := by
      intro id
      have hloc : (s.locals.modify g fun tbl => tbl.insert name v).find? label
          = s.locals.find? label := by
        rw [Table.find?_modify, if_neg (ha g hg)]
      simp only [resolve?_eq, localTable, inside, Option.bind_some, hloc]
    refine ⟨fun id w hw => ?_, fun id f hf => ⟨f, hf, .refl f⟩, fun id f hnone _ => ?_⟩
    · rw [hsame]; exact hw
    · rw [hsame]; exact hnone
  · have hglob : s.globals.find? name = none := by
      unfold currentTable at hcur
      rw [hc] at hcur
      exact hcur
    have hnew : ∀ id, (({ s with globals := s.globals.insert name v } : Scopes).inside label).resolve? id
        = ((s.inside label).localTable.find? id).or
            (if foldName id = foldName name then some v else s.globals.find? id) := by
      intro id
      rw [resolve?_eq, ← Table.find?_insert]
      rfl
    refine ⟨fun id w hw => ?_, fun id f hf => ⟨f, hf, .refl f⟩, fun id f hnone hid => ?_⟩
    · rw [hnew]
      rw [resolve?_eq] at hw
      split
      · rename_i hname
        have hg : (s.inside label).globals.find? id = none :=
          (Table.find?_congr _ hname).trans hglob
        rw [hg, Option.or_none] at hw
        rw [hw, Option.some_or]
      · exact hw
    · rw [hnew]
      rw [resolve?_eq] at hnone
      split
      · rename_i hname
        have : s.function? id = s.function? name := Table.find?_congr _ hname
        have hid : s.function? id = some f := hid
        rw [this, hf] at hid
        cases hid
      · exact hnone

theorem allocate_extends (s : Scopes) (size : Nat) : s.Extends (s.allocate size).2 :=
  ⟨fun _ _ h => h, fun _ f h => ⟨f, h, .refl f⟩, fun _ _ h _ => h⟩

theorem modifyFunction_extends {change : Signature → Signature}
    (hg : ∀ f : Signature, f.Grows (change f)) (s : Scopes) (name : String) :
    s.Extends (s.modifyFunction name change) := by
  refine ⟨fun _ _ h => h, fun id f hf => ?_, fun _ _ h _ => h⟩
  have hfind : (s.modifyFunction name change).function? id
      = if foldName id = foldName name then (s.function? id).map change else s.function? id :=
    Table.find?_modify ..
  rw [hfind, hf]
  split
  · exact ⟨change f, rfl, hg f⟩
  · exact ⟨f, rfl, .refl f⟩

end

/-- What the code of statements does to the names in scope. -/
inductive Uses : Scopes → Scopes → Prop
  | refl (s : Scopes) : Uses s s
  | called {s t : Scopes} (name : String) :
      Uses (s.modifyFunction name Signature.markCalled) t → Uses s t
  | control {s t u : Scopes} (name : String) : s.resolve? name = none →
      (s.allocate 1).2.declare name ⟨s.nextSlot, .scalar .integer⟩ = .ok t → Uses t u → Uses s u

section
variable {s t u : Scopes} {label : String}

theorem Uses.trans (a : Uses s t) (b : Uses t u) : Uses s u := by
  induction a with
  | refl => exact b
  | called name _ ih => exact .called name (ih b)
  | control name hr hd _ ih => exact .control name hr hd (ih b)

theorem Uses.current (h : Uses s t) : t.current = s.current := by
  induction h with
  | refl => rfl
  | called name _ ih => exact ih
  | control name hr hd _ ih => exact ih.trans ((declare_current hd).trans rfl)

theorem Uses.entered (h : Uses s t) (he : s.Entered) : t.Entered := by
  induction h with
  | refl => exact he
  | called name _ ih => exact ih he
  | @control s _ _ name hr hd _ ih =>
    have he' : (s.allocate 1).2.Entered := he
    exact ih (declare_entered he' hd)

theorem Uses.extends (h : Uses s t) (he : s.Entered) : s.Extends t := by
  induction h with
  | refl => exact .refl _
  | @called s _ name _ ih =>
    exact (modifyFunction_extends Signature.grows_markCalled s name).trans (ih he)
  | @control s _ _ name hr hd _ ih =>
    have he' : (s.allocate 1).2.Entered := he
    have hstep : (s.allocate 1).2.Extends _ := declare_extends he' hr hd
    exact ((allocate_extends s 1).trans hstep).trans (ih (declare_entered he' hd))

theorem Uses.elsewhere (h : Uses s t) (ha : s.Apart label) :
    (s.inside label).Extends (t.inside label) := by
  induction h with
  | refl => exact .refl _
  | @called s _ name _ ih =>
    exact (modifyFunction_extends Signature.grows_markCalled (s.inside label) name).trans (ih ha)
  | @control s t _ name hr hd _ ih =>
    have ha' : (s.allocate 1).2.Apart label := ha
    have hstep : ((s.allocate 1).2.inside label).Extends (t.inside label) :=
      declare_elsewhere ha' hd
    have hnext : t.Apart label := by
      intro g hg
      rw [declare_current hd] at hg
      exact ha g hg
    exact ((allocate_extends (s.inside label) 1).trans hstep).trans (ih hnext)

end

end Scopes

/-! ## reserved slots -/

/-- The slots of a variable of a function, or of a global one. -/
structure Region where
  owner : Option String
  name : String
  slot : Nat
  size : Nat
  shape : Shape

def Region.ofResult (a : Activation) : Region := ⟨some a.name, a.name, a.slot, 1, .scalar a.result⟩

/-- The region of a variable of one value. -/
def Region.Single (r : Region) : Prop := r.size = 1 ∧ ∃ t, t ≠ .array ∧ r.shape = .scalar t

/-- The region of a control variable that was not declared. -/
def Region.Control (r : Region) : Prop := r.size = 1 ∧ r.shape = .scalar .integer

theorem Region.Control.single {r : Region} (h : r.Control) : r.Single := ⟨h.1, .integer, nofun, h.2⟩

namespace Scopes
variable {s t u : Scopes} {log log' : List Region}

structure SameSlots (s t : Scopes) : Prop where
  globals : t.globals = s.globals
  locals : t.locals = s.locals
  nextSlot : t.nextSlot = s.nextSlot

/-- The regions that have been reserved between two states: for variables and for the results of
functions. -/
inductive Allocates : Scopes → List Region → Scopes → Prop
  | refl (s : Scopes) : Allocates s [] s
  | same {s t u : Scopes} {log : List Region} : s.SameSlots t → Allocates t log u → Allocates s log u
  | enter {s u : Scopes} {log : List Region} (label : String) (result : DataType) :
      Allocates ((s.enter label).allocate 1).2 log u →
      Allocates s (Region.ofResult ⟨label, s.nextSlot, result⟩ :: log) u
  | declare {s t u : Scopes} {log : List Region} (name : String) (size : Nat) (shape : Shape) :
      (s.allocate size).2.declare name ⟨s.nextSlot, shape⟩ = .ok t → Allocates t log u →
      Allocates s (⟨s.current, name, s.nextSlot, size, shape⟩ :: log) u

theorem SameSlots.refl (s : Scopes) : s.SameSlots s := ⟨rfl, rfl, rfl⟩

theorem SameSlots.trans (a : s.SameSlots t) (b : t.SameSlots u) : s.SameSlots u :=
  ⟨b.globals.trans a.globals, b.locals.trans a.locals, b.nextSlot.trans a.nextSlot⟩

theorem Allocates.trans (a : Allocates s log t) (b : Allocates t log' u) :
    Allocates s (log ++ log') u := by
  induction a with
  | refl => exact b
  | same hs _ ih => exact .same hs (ih b)
  | enter label result _ ih => exact .enter label result (ih b)
  | declare name size shape hd _ ih => exact .declare name size shape hd (ih b)

end Scopes

end PascalStack
