import PascalStack.Proofs.Compiler.Statements

/-!
# Compiled declarations

* `Scopes.Declares`       slots are reserved and names declared for them;
* `NamesCode`, `DeclarationsCode`   the code that gives variables their first values;
* `declarations_translate`          the code of declarations;
* `declareParameters_translates`    the slots of parameters.
-/

namespace PascalStack

namespace Scopes

/-- Slots are reserved and names declared for them in the table at hand. -/
inductive Declares : Scopes → List Region → Scopes → Prop
  | refl (s : Scopes) : Declares s [] s
  | step {s t u : Scopes} {log : List Region} (name : String) (size : Nat) (shape : Shape) :
      (s.allocate size).2.declare name ⟨s.nextSlot, shape⟩ = .ok t → Declares t log u →
      Declares s (⟨s.current, name, s.nextSlot, size, shape⟩ :: log) u

section
variable {s t u : Scopes} {log log' : List Region} {name id label : String} {v w : Variable}

theorem Declares.trans (a : Declares s log t) (b : Declares t log' u) : Declares s (log ++ log') u := by
  induction a with
  | refl => exact b
  | step name size shape hd _ ih => exact .step name size shape hd (ih b)

theorem Declares.single {size : Nat} {shape : Shape}
    (h : (s.allocate size).2.declare name ⟨s.nextSlot, shape⟩ = .ok t) :
    Declares s [⟨s.current, name, s.nextSlot, size, shape⟩] t :=
  .step name size shape h (.refl t)

theorem Declares.current (h : Declares s log t) : t.current = s.current := by
  induction h with
  | refl => rfl
  | step name size shape hd _ ih => exact ih.trans ((declare_current hd).trans rfl)

theorem Declares.function? (h : Declares s log t) (id : String) : t.function? id = s.function? id := by
  induction h with
  | refl => rfl
  | step name size shape hd _ ih => exact ih.trans (declare_function? hd id)

theorem Declares.entered (h : Declares s log t) (he : s.Entered) : t.Entered := by
  induction h with
  | refl => exact he
  | @step s _ _ _ name size shape hd _ ih =>
    have he' : (s.allocate size).2.Entered := he
    exact ih (declare_entered he' hd)

theorem Declares.elsewhere (h : Declares s log t) (ha : s.Apart label) :
    (s.inside label).Extends (t.inside label) := by
  induction h with
  | refl => exact .refl _
  | @step s t _ _ name size shape hd _ ih =>
    have ha' : (s.allocate size).2.Apart label := ha
    have hstep : ((s.allocate size).2.inside label).Extends (t.inside label) :=
      declare_elsewhere ha' hd
    have hnext : t.Apart label := by
      intro g hg
      rw [declare_current hd] at hg
      exact ha g hg
    exact ((allocate_extends (s.inside label) size).trans hstep).trans (ih hnext)

/-! ## the table at hand -/

theorem currentTable_some {g : String} {tbl : Table Variable} (hc : s.current = some g)
    (ht : s.locals.find? g = some tbl) : s.currentTable = tbl := by
  unfold currentTable
  rw [hc]
  exact localTable_some hc ht

theorem currentTable_none (hc : s.current = none) : s.currentTable = s.globals := by
  unfold currentTable
  rw [hc]

theorem currentTable_declare (he : s.Entered) (h : s.declare name v = .ok t) :
    t.currentTable = s.currentTable.insert name v := by
  obtain ⟨_, _, ⟨g, hg, rfl⟩ | ⟨hc, rfl⟩⟩ := declare_eq_ok.mp h
  · obtain ⟨tbl, htbl⟩ := he g hg
    rw [currentTable_some hg htbl]
    refine currentTable_some hg ?_
    show (s.locals.modify g _).find? g = _
    rw [Table.find?_modify, if_pos rfl, htbl, Option.map_some]
  · rw [currentTable_none hc]
    exact currentTable_none hc

/-- A name declared at hand is in sight. -/
theorem resolve?_of_currentTable (h : s.currentTable.find? id = some v) :
    s.resolve? id = some v := by
  unfold currentTable at h
  rw [resolve?_eq]
  split at h
  · rw [h, Option.some_or]
  · rename_i hc
    rw [localTable_none hc, Table.find?_empty, Option.none_or]
    exact h

/-- The names declared at hand stay. -/
def KeepsTable (s t : Scopes) : Prop :=
  ∀ id v, s.currentTable.find? id = some v → t.currentTable.find? id = some v

theorem declare_keepsTable (he : s.Entered) (h : s.declare name v = .ok t) : s.KeepsTable t := by
  intro id w hw
  rw [currentTable_declare he h, Table.find?_insert]
  split
  · rename_i hid
    have hnew := (declare_eq_ok.mp h).2.1
    rw [Table.find?_congr _ hid, hnew] at hw
    cases hw
  · exact hw

theorem Declares.keepsTable (h : Declares s log t) (he : s.Entered) : s.KeepsTable t := by
  induction h with
  | refl => exact fun _ _ hv => hv
  | @step s t _ _ name size shape hd _ ih =>
    have he' : (s.allocate size).2.Entered := he
    intro id v hv
    have hv' : (s.allocate size).2.currentTable.find? id = some v := hv
    exact ih (declare_entered he' hd) id v (declare_keepsTable he' hd id v hv')

/-- The names that were declared are there. -/
theorem Declares.found (h : Declares s log t) (he : s.Entered) :
    ∀ g ∈ log, t.currentTable.find? g.name = some ⟨g.slot, g.shape⟩ := by
  induction h with
  | refl => nofun
  | @step s t u log name size shape hd hrest ih =>
    have he' : (s.allocate size).2.Entered := he
    have he₁ := declare_entered he' hd
    have hfind : t.currentTable.find? name = some ⟨s.nextSlot, shape⟩ := by
      rw [currentTable_declare he' hd, Table.find?_insert, if_pos rfl]
    exact List.forall_mem_cons.mpr ⟨hrest.keepsTable he₁ _ _ hfind, ih he₁⟩

theorem Uses.keepsTable (h : Uses s t) (he : s.Entered) : s.KeepsTable t := by
  induction h with
  | refl => exact fun _ _ hv => hv
  | called name _ ih => exact ih he
  | @control s t _ name hr hd _ ih =>
    have he' : (s.allocate 1).2.Entered := he
    intro id v hv
    have hv' : (s.allocate 1).2.currentTable.find? id = some v := hv
    exact ih (declare_entered he' hd) id v (declare_keepsTable he' hd id v hv')

end

end Scopes

/-! ## the code of declarations -/

theorem arraySize?_eq {low high : Int64} {size : Nat} (h : arraySize? low high = some size) :
    size = (high.toInt - low.toInt + 1).toNat := by
  simp only [arraySize?] at h
  split at h
  · cases h
    rfl
  · cases h

section
variable (S : Scopes)

inductive NamesCode (type : TypeDenoter) : List String → List Line → Prop
  | nil : NamesCode type [] []
  | scalar {t : DataType} {name : String} {names : List String} {slot : Nat} {rest : List Line} :
      DataType.ofScalar? type = some t → S.resolve? name = some ⟨slot, .scalar t⟩ →
      NamesCode type names rest →
      NamesCode type (name :: names) (emit [t.initial, .storeg (some slot)] ++ rest)
  | array {low high : Expr} {element : TypeDenoter} {l h : Int64} {size : Nat} {t : DataType}
      {name : String} {names : List String} {base : Nat} {rest : List Line} :
      type = .array low high element → DataType.ofScalar? element = some t →
      low.constant? = some l → high.constant? = some h → arraySize? l h = some size →
      S.resolve? name = some ⟨base, .array l t⟩ → NamesCode type names rest →
      NamesCode type (name :: names)
        (emit (.pushn size :: (List.range' base size).map fun slot => .storeg (some slot)) ++ rest)

inductive DeclarationsCode : List VarDecl → List Line → Prop
  | nil : DeclarationsCode [] []
  | cons {v : VarDecl} {vs : List VarDecl} {code rest : List Line} :
      NamesCode S v.type v.names code → DeclarationsCode vs rest →
      DeclarationsCode (v :: vs) (code ++ rest)

end

open Compile

structure Compiler.DeclaresOnly (c : Compiler) (log : List Region) (d : Compiler) : Prop where
  declares : Scopes.Declares c.scopes log d.scopes
  others : d = { c with scopes := d.scopes }

/-- The names declared at hand are in sight in `S`. -/
def Scopes.Shows (s S : Scopes) : Prop := ∀ id v, s.currentTable.find? id = some v → S.resolve? id = some v

/-- The regions of the variables of one declaration. -/
structure Region.DeclaredBy (type : TypeDenoter) (names : List String) (r : Region) : Prop where
  name : r.name ∈ names
  shape : (∃ t, DataType.ofScalar? type = some t ∧ r.size = 1 ∧ r.shape = .scalar t) ∨
    ∃ low high element l h t, type = .array low high element ∧ DataType.ofScalar? element = some t ∧
      low.constant? = some l ∧ high.constant? = some h ∧ arraySize? l h = some r.size ∧
      r.shape = .array l t

/-- All slots of a region are named in code. -/
def Region.NamedIn (code : List Line) (r : Region) : Prop := ∀ i < r.size, r.slot + i ∈ slotsOf code

section
variable {c d e : Compiler} {code : List Line} {S : Scopes} {log log' : List Region}

theorem Region.NamedIn.mono {code' : List Line} {r : Region} (h : r.NamedIn code)
    (hsub : slotsOf code ⊆ slotsOf code') : r.NamedIn code' :=
  fun i hi => hsub (h i hi)

theorem Region.NamedIn.left {r : Region} (h : r.NamedIn code) (rest : List Line) :
    r.NamedIn (code ++ rest) :=
  h.mono fun n hn => by rw [slotsOf_append]; exact List.mem_append_left _ hn

theorem Region.NamedIn.right {r : Region} (h : r.NamedIn code) (first : List Line) :
    r.NamedIn (first ++ code) :=
  h.mono fun n hn => by rw [slotsOf_append]; exact List.mem_append_right _ hn

theorem Region.Single.namedIn {r : Region} (h : r.Single) (hslot : r.slot ∈ slotsOf code) :
    r.NamedIn code := by
  intro i hi
  rw [h.1, Nat.lt_one_iff] at hi
  rw [hi]
  exact hslot

theorem Compiler.DeclaresOnly.refl (c : Compiler) : c.DeclaresOnly [] c := ⟨.refl _, rfl⟩

theorem Compiler.DeclaresOnly.trans (a : c.DeclaresOnly log d) (b : d.DeclaresOnly log' e) :
    c.DeclaresOnly (log ++ log') e := by
  refine ⟨a.declares.trans b.declares, ?_⟩
  rw [b.others, a.others]

theorem Compiler.DeclaresOnly.shows (h : c.DeclaresOnly log d) (he : c.scopes.Entered)
    (hS : d.scopes.Shows S) : c.scopes.Shows S :=
  fun id v hv => hS id v (h.declares.keepsTable he id v hv)

/-- One reservation and one declaration. -/
theorem allocate_declare {name : String} {size slot : Nat} {shape : Shape} {c₁ : Compiler} {u : Unit}
    (he : c.scopes.Entered) (ha : allocate size c = .ok slot c₁)
    (hd : declare name ⟨slot, shape⟩ c₁ = .ok u d) :
    c.DeclaresOnly [⟨c.scopes.current, name, slot, size, shape⟩] d ∧
      d.scopes.currentTable.find? name = some ⟨slot, shape⟩ := by
  obtain ⟨rfl, rfl⟩ := allocate_eq_ok.mp ha
  obtain ⟨s, hs, rfl⟩ := declare_eq_ok.mp hd
  have he' : (c.scopes.allocate size).2.Entered := he
  refine ⟨⟨.single hs, rfl⟩, ?_⟩
  show s.currentTable.find? name = _
  rw [Scopes.currentTable_declare he' hs, Table.find?_insert, if_pos rfl]

theorem DataType.ofScalar?_ne_array {type : TypeDenoter} {t : DataType}
    (h : DataType.ofScalar? type = some t) : t ≠ .array := by
  cases type <;> cases h <;> nofun

theorem Region.DeclaredBy.cons {type : TypeDenoter} {name : String} {names : List String} {r : Region}
    (h : r.DeclaredBy type names) : r.DeclaredBy type (name :: names) :=
  ⟨List.mem_cons_of_mem _ h.name, h.shape⟩

theorem declareScalars_translates {type : TypeDenoter} {t : DataType} {names : List String}
    (ht : DataType.ofScalar? type = some t) (he : c.scopes.Entered)
    (h : declareScalars t names c = .ok code d) :
    ∃ log, c.DeclaresOnly log d ∧ log.map Region.name = names ∧ (∀ r ∈ log, r.DeclaredBy type names ∧ r.NamedIn code) ∧
      ∀ S, d.scopes.Shows S → NamesCode S type names code := by
  induction names generalizing c code with
  | nil =>
    rw [declareScalars, pure_eq_ok] at h
    obtain ⟨rfl, rfl⟩ := h
    exact ⟨[], .refl _, rfl, nofun, fun S _ => .nil⟩
  | cons name names ih =>
    rw [declareScalars] at h
    simp only [bind_eq_ok, pure_eq_ok] at h
    obtain ⟨slot, c₁, ha, _, c₂, hd, r, _, hr, rfl, rfl⟩ := h
    obtain ⟨hone, hfind⟩ := allocate_declare he ha hd
    have he₂ := hone.declares.entered he
    obtain ⟨log, hrest, hnames, hlog, hc⟩ := ih he₂ hr
    refine ⟨_, hone.trans hrest, congrArg (name :: ·) hnames, ?_, fun S hS => .scalar ht (hrest.shows he₂ hS _ _ hfind) (hc S hS)⟩
    intro r hr
    rcases List.mem_cons.mp hr with rfl | hr
    · have hnamed : (⟨c.scopes.current, name, slot, 1, .scalar t⟩ : Region).NamedIn
          (emit [t.initial, .storeg (some slot)]) := by
        refine Region.Single.namedIn ⟨rfl, t, DataType.ofScalar?_ne_array ht, rfl⟩ ?_
        cases t <;> exact List.mem_singleton_self slot
      exact ⟨⟨List.mem_cons_self .., .inl ⟨t, ht, rfl, rfl⟩⟩, hnamed.left _⟩
    · exact ⟨(hlog r hr).1.cons, (hlog r hr).2.right _⟩

theorem declareArrays_translates {low high : Expr} {element : TypeDenoter} {t : DataType}
    {names : List String} (ht : DataType.ofScalar? element = some t) (he : c.scopes.Entered)
    (h : declareArrays low high t names c = .ok code d) :
    ∃ log, c.DeclaresOnly log d ∧ log.map Region.name = names ∧
      (∀ r ∈ log, r.DeclaredBy (.array low high element) names ∧ r.NamedIn code) ∧
      ∀ S, d.scopes.Shows S → NamesCode S (.array low high element) names code := by
  induction names generalizing c code with
  | nil =>
    rw [declareArrays, pure_eq_ok] at h
    obtain ⟨rfl, rfl⟩ := h
    exact ⟨[], .refl _, rfl, nofun, fun S _ => .nil⟩
  | cons name names ih =>
    rw [declareArrays] at h
    cases hl : low.constant? with
    | none => simp only [hl, throw_eq_ok] at h
    | some l =>
      cases hh : high.constant? with
      | none => simp only [hl, hh, throw_eq_ok] at h
      | some k =>
        cases hsize : arraySize? l k with
        | none => simp only [hl, hh, hsize, throw_eq_ok] at h
        | some size =>
          simp only [hl, hh, hsize, bind_eq_ok, pure_eq_ok] at h
          obtain ⟨base, c₁, ha, _, c₂, hd, r, _, hr, rfl, rfl⟩ := h
          obtain ⟨hone, hfind⟩ := allocate_declare he ha hd
          have he₂ := hone.declares.entered he
          obtain ⟨log, hrest, hnames, hlog, hc⟩ := ih he₂ hr
          refine ⟨_, hone.trans hrest, congrArg (name :: ·) hnames, ?_, fun S hS =>
            .array rfl ht hl hh hsize (hrest.shows he₂ hS _ _ hfind) (hc S hS)⟩
          intro r hr
          rcases List.mem_cons.mp hr with rfl | hr
          · have hnamed : (⟨c.scopes.current, name, base, size, .array l t⟩ : Region).NamedIn
                (emit (.pushn size :: (List.range' base size).map fun slot => .storeg (some slot))) := by
              intro i hi
              show base + i ∈ slotsOf (emit ((List.range' base size).map fun slot => .storeg (some slot)))
              rw [slotsOf_stores, List.mem_range'_1]
              exact ⟨Nat.le_add_right base i, Nat.add_lt_add_left hi base⟩
            exact ⟨⟨List.mem_cons_self ..,
              .inr ⟨low, high, element, l, k, t, rfl, ht, hl, hh, hsize, rfl⟩⟩, hnamed.left _⟩
          · exact ⟨(hlog r hr).1.cons, (hlog r hr).2.right _⟩

theorem varDecl_translates {v : VarDecl} (he : c.scopes.Entered) (h : v.compile c = .ok code d) :
    ∃ log, c.DeclaresOnly log d ∧ log.map Region.name = v.names ∧ (∀ r ∈ log, r.DeclaredBy v.type v.names ∧ r.NamedIn code) ∧
      ∀ S, d.scopes.Shows S → NamesCode S v.type v.names code := by
  obtain ⟨names, type⟩ := v
  unfold VarDecl.compile at h
  cases type with
  | array low high element =>
    cases ht : DataType.ofScalar? element with
    | none => simp only [ht, throw_eq_ok] at h
    | some t =>
      simp only [ht] at h
      exact declareArrays_translates ht he h
  | real => exact declareScalars_translates rfl he h
  | integer => exact declareScalars_translates rfl he h
  | boolean => exact declareScalars_translates rfl he h
  | string => exact declareScalars_translates rfl he h
  | char => exact declareScalars_translates rfl he h

theorem declarations_translate {vs : List VarDecl} (he : c.scopes.Entered)
    (h : compileVariables vs c = .ok code d) :
    ∃ log, c.DeclaresOnly log d ∧
      (∀ v ∈ vs, ∀ name ∈ v.names, ∃ r ∈ log, r.name = name ∧ r.DeclaredBy v.type v.names) ∧
      (∀ r ∈ log, (∃ v ∈ vs, r.DeclaredBy v.type v.names) ∧ r.NamedIn code) ∧
      ∀ S, d.scopes.Shows S → DeclarationsCode S vs code := by
  induction vs generalizing c code with
  | nil =>
    rw [compileVariables, pure_eq_ok] at h
    obtain ⟨rfl, rfl⟩ := h
    exact ⟨[], .refl _, nofun, nofun, fun S _ => .nil⟩
  | cons v vs ih =>
    rw [compileVariables] at h
    simp only [bind_eq_ok, pure_eq_ok] at h
    obtain ⟨a, c₁, ha, r, _, hr, rfl, rfl⟩ := h
    obtain ⟨log₁, h₁, hnames₁, hlog₁, hc₁⟩ := varDecl_translates he ha
    have he₁ := h₁.declares.entered he
    obtain ⟨log₂, h₂, hfound₂, hlog₂, hc₂⟩ := ih he₁ hr
    refine ⟨_, h₁.trans h₂, List.forall_mem_cons.mpr ⟨fun name hname => ?_, fun w hw name hname => ?_⟩, ?_,
      fun S hS => .cons (hc₁ S (h₂.shows he₁ hS)) (hc₂ S hS)⟩
    · rw [← hnames₁] at hname
      obtain ⟨g, hg, rfl⟩ := List.mem_map.mp hname
      exact ⟨g, List.mem_append_left _ hg, rfl, (hlog₁ g hg).1⟩
    · obtain ⟨g, hg, hgw⟩ := hfound₂ w hw name hname
      exact ⟨g, List.mem_append_right _ hg, hgw⟩
    intro r hr
    rcases List.mem_append.mp hr with hr | hr
    · exact ⟨⟨v, List.mem_cons_self .., (hlog₁ r hr).1⟩, (hlog₁ r hr).2.left _⟩
    · obtain ⟨⟨w, hw, hrw⟩, hnamed⟩ := hlog₂ r hr
      exact ⟨⟨w, List.mem_cons_of_mem _ hw, hrw⟩, hnamed.right _⟩

inductive ParameterSlots (S : Scopes) : List (String × DataType) → List Nat → Prop
  | nil : ParameterSlots S [] []
  | cons {name : String} {t : DataType} {slot : Nat} {ps : List (String × DataType)}
      {slots : List Nat} : S.resolve? name = some ⟨slot, .scalar t⟩ → ParameterSlots S ps slots →
      ParameterSlots S ((name, t) :: ps) (slot :: slots)

theorem parameterList_ne_array {sections : List ParameterSection} {ps : List (String × DataType)}
    (h : parameterList sections = .ok ps) : ∀ p ∈ ps, p.2 ≠ .array := by
  induction sections generalizing ps with
  | nil =>
    cases h
    nofun
  | cons section_ rest ih =>
    cases section_ with
    | function name parameters result => cases h
    | value names type | reference names type =>
      rw [parameterList] at h
      split at h
      · cases h
      · rename_i t ht
        obtain ⟨qs, hqs, h⟩ := Scopes.except_bind_eq_ok.mp h
        cases h
        intro p hp
        rcases List.mem_append.mp hp with hp | hp
        · obtain ⟨name, -, rfl⟩ := List.mem_map.mp hp
          exact DataType.ofScalar?_ne_array ht
        · exact ih hqs p hp

theorem declareParameters_translates {ps : List (String × DataType)} {slots : List Nat}
    (hps : ∀ p ∈ ps, p.2 ≠ .array) (he : c.scopes.Entered) (h : declareParameters ps c = .ok slots d) :
    ∃ log, c.DeclaresOnly log d ∧
      (∀ r ∈ log, r.Single ∧ r.slot ∈ slots ∧ ∃ t, (r.name, t) ∈ ps ∧ r.shape = .scalar t) ∧
      ∀ S, d.scopes.Shows S → ParameterSlots S ps slots := by
  induction ps generalizing c slots with
  | nil =>
    rw [declareParameters, pure_eq_ok] at h
    obtain ⟨rfl, rfl⟩ := h
    exact ⟨[], .refl _, nofun, fun S _ => .nil⟩
  | cons p ps ih =>
    obtain ⟨name, t⟩ := p
    rw [declareParameters] at h
    simp only [bind_eq_ok, pure_eq_ok] at h
    obtain ⟨slot, c₁, ha, _, c₂, hd, r, _, hr, rfl, rfl⟩ := h
    obtain ⟨hone, hfind⟩ := allocate_declare he ha hd
    have he₂ := hone.declares.entered he
    obtain ⟨ht, hps⟩ := List.forall_mem_cons.mp hps
    obtain ⟨log, hrest, hlog, hc⟩ := ih hps he₂ hr
    refine ⟨_, hone.trans hrest, ?_, fun S hS => .cons (hrest.shows he₂ hS _ _ hfind) (hc S hS)⟩
    intro r hr
    rcases List.mem_cons.mp hr with rfl | hr
    · exact ⟨⟨rfl, t, ht, rfl⟩, List.mem_cons_self .., t, List.mem_cons_self .., rfl⟩
    · obtain ⟨hsingle, hslot, t, ht, hshape⟩ := hlog r hr
      exact ⟨hsingle, List.mem_cons_of_mem _ hslot, t, List.mem_cons_of_mem _ ht, hshape⟩

end

end PascalStack
