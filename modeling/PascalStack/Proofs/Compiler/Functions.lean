import PascalStack.Proofs.Compiler.Slots

/-!
# Compiled functions

* `RoutineCode`, `RoutinesCode`   the code of functions, in the scopes at the end of the compilation;
* `Scopes.Kept`                   what is in sight inside a function with a body stays in sight;
* `Compiler.Ready`                what holds between two function declarations;
* `functions_translate`           the code of function declarations.
-/

namespace PascalStack

inductive RoutineCode (L : Layout) (k : Counters) (r : Routine) : List Line → Counters → Prop
  | mk {slots : List Nat} {declarations statements : List Line} {k' : Counters} :
      ParameterSlots (L.contextOf r).scopes r.parameters slots →
      DeclarationsCode (L.contextOf r).scopes r.block.declarations declarations →
      StmtsCode (L.contextOf r) k r.block.statements statements k' →
      RoutineCode L k r
        (functionCode r.activation.name r.activation.slot slots declarations statements) k'

inductive RoutinesCode (L : Layout) : Counters → List Routine → List Line → Counters → Prop
  | nil {k : Counters} : RoutinesCode L k [] [] k
  | cons {k k₁ k' : Counters} {r : Routine} {rs : List Routine} {code rest : List Line} :
      RoutineCode L k r code k₁ → RoutinesCode L k₁ rs rest k' →
      RoutinesCode L k (r :: rs) (code ++ rest) k'

namespace Scopes
variable {s t u : Scopes} {label : String}

/-- What is known of functions grows, and so does what is in sight inside the functions that have a
body. -/
structure Kept (s t : Scopes) : Prop where
  functions : ∀ id f, s.function? id = some f → ∃ g, t.function? id = some g ∧ f.Grows g
  inside : ∀ label f, s.function? label = some f → f.hasBody = true →
    (s.inside label).Extends (t.inside label)

theorem Kept.refl (s : Scopes) : s.Kept s :=
  ⟨fun _ f h => ⟨f, h, .refl f⟩, fun _ _ _ _ => .refl _⟩

theorem Kept.trans (a : s.Kept t) (b : t.Kept u) : s.Kept u := by
  refine ⟨fun id f h => ?_, fun label f h hb => ?_⟩
  · obtain ⟨g, hg, hfg⟩ := a.functions id f h
    obtain ⟨k, hk, hgk⟩ := b.functions id g hg
    exact ⟨k, hk, hfg.trans hgk⟩
  · obtain ⟨g, hg, hfg⟩ := a.functions label f h
    exact (a.inside label f h hb).trans (b.inside label g hg (hfg.hasBody hb))

/-- Outside of functions everything is kept. -/
theorem Uses.kept (h : Uses s t) (hc : s.current = none) : s.Kept t := by
  have hext : ∀ label, (s.inside label).Extends (t.inside label) := by
    intro label
    refine h.elsewhere fun g hg => ?_
    rw [hc] at hg
    cases hg
  exact ⟨(hext "").function, fun label _ _ _ => hext label⟩

/-- Using names gives no function a body. -/
theorem Uses.reflects (h : Uses s t) {id : String} {g : Signature} (hg : t.function? id = some g) :
    ∃ f, s.function? id = some f ∧ f.Grows g ∧ g.hasBody = f.hasBody := by
  induction h with
  | refl => exact ⟨g, hg, .refl g, rfl⟩
  | @called s _ name _ ih =>
    obtain ⟨f, hf, hgrow, hbody⟩ := ih hg
    have hfind : (s.modifyFunction name Signature.markCalled).function? id
        = if foldName id = foldName name then (s.function? id).map Signature.markCalled
          else s.function? id := Table.find?_modify ..
    rw [hfind] at hf
    split at hf
    · obtain ⟨f₀, hf₀, rfl⟩ := Option.map_eq_some_iff.mp hf
      exact ⟨f₀, hf₀, f₀.grows_markCalled.trans hgrow, hbody⟩
    · exact ⟨f, hf, hgrow, hbody⟩
  | control name hr hd _ ih =>
    obtain ⟨f, hf, hgrow, hbody⟩ := ih hg
    rw [declare_function? hd] at hf
    exact ⟨f, hf, hgrow, hbody⟩

/-! ## entering and leaving a function -/

theorem enter_entered (s : Scopes) (label : String) : (s.enter label).Entered := by
  intro g hg
  cases hg
  unfold enter
  split
  · rename_i hc
    exact Table.contains_eq_true.mp hc
  · exact ⟨.empty, by rw [Table.find?_insert, if_pos rfl]⟩

/-- Other functions do not see that one is entered. -/
theorem enter_elsewhere {other : String} (h : foldName other ≠ foldName label) :
    (s.inside other).Extends ((s.enter label).inside other) := by
  have hloc : (s.enter label).locals.find? other = s.locals.find? other := by
    unfold enter
    split
    · rfl
    · show (s.locals.insert label .empty).find? other = _
      rw [Table.find?_insert, if_neg h]
  have hres : ∀ id, ((s.enter label).inside other).resolve? id = (s.inside other).resolve? id := by
    intro id
    simp only [resolve?_eq, localTable, inside, Option.bind_some, hloc]
    rfl
  refine ⟨fun id v hv => ?_, fun id f hf => ⟨f, hf, .refl f⟩, fun id f hr _ => ?_⟩
  · rw [hres]; exact hv
  · rw [hres]; exact hr

theorem enter_globals (s : Scopes) (label : String) : (s.enter label).globals = s.globals := rfl

/-- Inside a function no global variable is declared. -/
theorem declare_globals {name : String} {v : Variable} (hc : s.current = some label)
    (h : s.declare name v = .ok t) : t.globals = s.globals := by
  obtain ⟨_, _, ⟨g, hg, rfl⟩ | ⟨hnone, rfl⟩⟩ := declare_eq_ok.mp h
  · rfl
  · rw [hc] at hnone
    cases hnone

theorem Declares.globals {log : List Region} (h : Declares s log t) (hc : s.current = some label) :
    t.globals = s.globals := by
  induction h with
  | refl => rfl
  | @step s _ _ _ name size shape hd _ ih =>
    have hc' : (s.allocate size).2.current = some label := hc
    exact (ih ((declare_current hd).trans hc')).trans
      (@declare_globals (s.allocate _).2 _ _ _ _ hc' hd)

theorem Uses.globals (h : Uses s t) (hc : s.current = some label) : t.globals = s.globals := by
  induction h with
  | refl => rfl
  | called name _ ih => exact ih hc
  | @control s _ _ name hr hd _ ih =>
    have hc' : (s.allocate 1).2.current = some label := hc
    exact (ih ((declare_current hd).trans hc')).trans
      (@declare_globals (s.allocate _).2 _ _ _ _ hc' hd)

theorem inside_leave (h : s.current = some label) : s.leave.inside label = s := by
  unfold leave inside
  rw [← h]

end Scopes

open Compile

/-! ## bodies -/

def Compiler.entering (c : Compiler) (label : String) (result : DataType) : Compiler :=
  { c with
    scopes := ((c.scopes.enter label).allocate 1).2
    activation := some ⟨label, c.scopes.nextSlot, result⟩ }

def Compiler.leaving (c : Compiler) : Compiler :=
  { c with activation := none, scopes := c.scopes.leave }

section
variable {c d : Compiler} {code : List Line} {label : String} {heading : Heading} {block : Block}

theorem compileBody_eq_ok (h : compileBody label heading block c = .ok code d) :
    ∃ result ps slots declarations statements c₁ c₂ c₃,
      heading.resultType = .ok result ∧ parameterList heading.parameters = .ok ps ∧
      declareParameters ps (c.entering label result) = .ok slots c₁ ∧
      compileVariables block.declarations c₁ = .ok declarations c₂ ∧
      compileAll block.statements c₂ = .ok statements c₃ ∧
      d = c₃.leaving ∧
      code = functionCode label c.scopes.nextSlot slots declarations statements := by
  unfold compileBody at h
  simp only [bind_eq_ok, ite_eq_ok, throw_eq_ok, false_and, exists_false, and_false, false_or,
    check_eq_ok, scopes_eq_ok, setScopes_eq_ok, allocate_eq_ok, modify_eq_ok, pure_eq_ok] at h
  obtain ⟨_, result, _, ⟨hres, rfl⟩, _, _, ⟨rfl, rfl⟩, _, _, rfl, slot, _, ⟨rfl, rfl⟩, _, _, rfl,
    ps, _, ⟨hps, rfl⟩, slots, c₁, hslots, decls, c₂, hdecls, stmts, c₃, hstmts, _, _, rfl, rfl, rfl⟩ := h
  exact ⟨result, ps, slots, decls, stmts, c₁, c₂, c₃, hres, hps, hslots, hdecls, hstmts, rfl, rfl⟩

theorem Heading.resultType_ne_array {t : DataType} (h : heading.resultType = .ok t) : t ≠ .array := by
  unfold Heading.resultType at h
  split at h
  · rename_i ht
    cases h
    exact DataType.ofScalar?_ne_array ht
  · cases h

/-- The region of a text of a function: its result, a parameter, or a variable that it declares. -/
def Routine.HasText (r : Routine) (g : Region) : Prop :=
  g = .ofResult r.activation ∨ (g.owner = some r.activation.name ∧
    ((g.name, .string) ∈ r.parameters ∨ ∃ v ∈ r.block.declarations, g.DeclaredBy v.type v.names))

/-- A name of a declaration has its region. -/
def Scopes.Places (s : Scopes) (log : List Region) (owner : Option String) (v : VarDecl) : Prop :=
  ∀ name ∈ v.names, ∃ g ∈ log, g.DeclaredBy v.type v.names ∧ s.declared? owner name = some ⟨g.slot, g.shape⟩

theorem Scopes.Places.mono {s t : Scopes} {log log' : List Region} {owner : Option String} {v : VarDecl}
    (h : s.Places log owner v) (hlog : log ⊆ log')
    (hkeeps : ∀ id w, s.declared? owner id = some w → t.declared? owner id = some w) : t.Places log' owner v := by
  intro name hname
  obtain ⟨g, hg, hdecl, hfind⟩ := h name hname
  exact ⟨g, hlog hg, hdecl, hkeeps _ _ hfind⟩

/-- The declarations that were made. -/
theorem Compiler.DeclaresOnly.places {c d : Compiler} {log : List Region} {vs : List VarDecl}
    (h : c.DeclaresOnly log d) (he : c.scopes.Entered)
    (hfound : ∀ v ∈ vs, ∀ name ∈ v.names, ∃ r ∈ log, r.name = name ∧ r.DeclaredBy v.type v.names) :
    ∀ v ∈ vs, d.scopes.Places log d.scopes.current v := by
  intro v hv name hname
  obtain ⟨g, hg, rfl, hdecl⟩ := hfound v hv name hname
  exact ⟨g, hg, hdecl, Scopes.declared?_of_currentTable (h.declares.found he g hg)⟩

structure Routine.Regions (r : Routine) (s : Scopes) (code : List Line) (log : List Region) : Prop where
  result : .ofResult r.activation ∈ log
  named : ∀ g ∈ log, g.NamedIn code
  texts : ∀ g ∈ log, g.shape = .scalar .string → r.HasText g
  places : ∀ v ∈ r.block.declarations, s.Places log (some r.activation.name) v
  declared : ∀ g ∈ log, g.Single ∨
    (g.owner = some r.activation.name ∧ ∃ v ∈ r.block.declarations, g.DeclaredBy v.type v.names)

structure BodyTranslated (c d : Compiler) (r : Routine) (code : List Line) : Prop where
  current : d.scopes.current = none
  activation : d.activation = none
  pending : d.pending = c.pending
  globals : d.scopes.globals = c.scopes.globals
  allocates : ∃ log, c.scopes.Allocates log d.scopes ∧ r.Regions d.scopes code log
  elsewhere : ∀ other, foldName other ≠ foldName r.activation.name →
    (c.scopes.inside other).Extends (d.scopes.inside other)
  functions : ∀ id f, c.scopes.function? id = some f →
    ∃ g, d.scopes.function? id = some g ∧ f.Grows g
  reflects : ∀ id g, d.scopes.function? id = some g →
    ∃ f, c.scopes.function? id = some f ∧ f.Grows g ∧ g.hasBody = f.hasBody
  code : ∀ L : Layout,
    (d.scopes.inside r.activation.name).Extends (L.scopes.inside r.activation.name) →
    RoutineCode L c.counters r code d.counters

/-! ### the regions of a function -/

structure Routine.HasRegion (r : Routine) (code : List Line) (g : Region) : Prop where
  named : g.NamedIn code
  text : g.shape = .scalar .string → r.HasText g
  declared : g.Single ∨
    (g.owner = some r.activation.name ∧ ∃ v ∈ r.block.declarations, g.DeclaredBy v.type v.names)

section
variable {r : Routine} {g : Region} {slots : List Nat} {declarations statements : List Line}

theorem Routine.hasRegion_result (h : r.activation.result ≠ .array) : r.HasRegion
    (functionCode r.activation.name r.activation.slot slots declarations statements) (.ofResult r.activation) := by
  have hsingle : (Region.ofResult r.activation).Single := ⟨rfl, _, h, rfl⟩
  exact ⟨(hsingle.namedIn (List.mem_singleton_self _)).right _, fun _ => .inl rfl, .inl hsingle⟩

theorem Routine.hasRegion_parameter {t : DataType} (hsingle : g.Single) (hslot : g.slot ∈ slots)
    (howner : g.owner = some r.activation.name) (ht : (g.name, t) ∈ r.parameters) (hshape : g.shape = .scalar t) :
    r.HasRegion (functionCode r.activation.name r.activation.slot slots declarations statements) g := by
  have hnamed : g.NamedIn (emit (slots.reverse.map fun slot => .storeg (some slot))) :=
    hsingle.namedIn (by rw [slotsOf_stores]; exact List.mem_reverse.mpr hslot)
  refine ⟨(((hnamed.right _).left _).left _).left _, fun hstring => ?_, .inl hsingle⟩
  cases hshape.symm.trans hstring
  exact .inr ⟨howner, .inl ht⟩

theorem Routine.hasRegion_variable (howner : g.owner = some r.activation.name)
    (hdecl : ∃ v ∈ r.block.declarations, g.DeclaredBy v.type v.names) (hnamed : g.NamedIn declarations) :
    r.HasRegion (functionCode r.activation.name r.activation.slot slots declarations statements) g :=
  ⟨((hnamed.right _).left _).left _, fun _ => .inr ⟨howner, .inr hdecl⟩, .inr ⟨howner, hdecl⟩⟩

/-- The control variable of a loop, which need not be declared, is an integer. -/
theorem Routine.hasRegion_control (hcontrol : g.Control) (hslot : g.slot ∈ slotsOf statements) :
    r.HasRegion (functionCode r.activation.name r.activation.slot slots declarations statements) g := by
  refine ⟨((hcontrol.single.namedIn hslot).right _).left _, fun hstring => ?_, .inl hcontrol.single⟩
  exact absurd (hcontrol.2.symm.trans hstring) nofun

end

/-- Other functions do not see what is declared and used in a body. -/
theorem Compiler.entering_elsewhere {result : DataType} {log : List Region} {c₁ c₂ : Compiler}
    (hd : (c.entering label result).DeclaresOnly log c₁) (hu : c₁.scopes.Uses c₂.scopes) {other : String}
    (hother : foldName other ≠ foldName label) : (c.scopes.inside other).Extends (c₂.scopes.inside other) := by
  have henter : (c.scopes.inside other).Extends ((c.entering label result).scopes.inside other) :=
    (Scopes.enter_elsewhere hother).trans (Scopes.allocate_extends ((c.scopes.enter label).inside other) 1)
  have happart : ∀ d : Compiler, d.scopes.current = some label → d.scopes.Apart other := by
    intro d hcurrent g hg
    cases hcurrent.symm.trans hg
    exact hother
  exact (henter.trans (hd.declares.elsewhere (happart _ rfl))).trans
    (hu.elsewhere (happart c₁ hd.declares.current))

theorem compileBody_translates
    (h : compileBody label heading block c = .ok code d) :
    ∃ r, heading.routine? label c.scopes.nextSlot block = some r ∧ r.activation.name = label ∧
      BodyTranslated c d r code := by
  obtain ⟨result, ps, slots, decls, stmts, c₁, c₂, c₃, hres, hps, hslots, hdecls, hstmts, rfl, rfl⟩ :=
    compileBody_eq_ok h
  have he₀ : (c.entering label result).scopes.Entered := c.scopes.enter_entered label
  obtain ⟨log₁, hd₁, hlog₁, hc₁⟩ := declareParameters_translates (parameterList_ne_array hps) he₀ hslots
  have he₁ := hd₁.declares.entered he₀
  obtain ⟨log₂, hd₂, hfound₂, hlog₂, hc₂⟩ := declarations_translate he₁ hdecls
  have he₂ := hd₂.declares.entered he₁
  obtain ⟨hm, ⟨log₃, ha, hlog₃⟩, hc₃⟩ := stmts_translate block.statements he₂ hstmts
  have hd := hd₁.trans hd₂
  have hcur₁ : c₁.scopes.current = some label := hd₁.declares.current
  have hcur₂ : c₂.scopes.current = some label := hd.declares.current
  have hcur₃ : c₃.scopes.current = some label := hm.uses.current.trans hcur₂
  have hact : c₂.activation = some ⟨label, c.scopes.nextSlot, result⟩ := by rw [hd.others]; rfl
  have hcount : c₂.counters = c.counters := by rw [hd.others]; rfl
  have hpend : c₃.pending = c.pending := by rw [hm.pending, hd.others]; rfl
  refine ⟨⟨⟨label, c.scopes.nextSlot, result⟩, ps, block⟩, ?_, rfl,
    ⟨rfl, rfl, hpend, ?_, ?_, fun other hother => Compiler.entering_elsewhere hd hm.uses hother, ?_, ?_, ?_⟩⟩
  · unfold Heading.routine?
    rw [hres, hps]
  · have hcur₀ : (c.entering label result).scopes.current = some label := rfl
    exact (hm.uses.globals hcur₂).trans ((hd.declares.globals hcur₀).trans (Scopes.enter_globals _ label))
  · have hsame : c₃.scopes.SameSlots c₃.leaving.scopes := ⟨rfl, rfl, rfl⟩
    have hleave := Scopes.Allocates.same hsame (.refl _)
    have heach : ∀ g ∈ .ofResult ⟨label, c.scopes.nextSlot, result⟩ :: (log₁ ++ log₂ ++ log₃ ++ []),
        Routine.HasRegion ⟨⟨label, c.scopes.nextSlot, result⟩, ps, block⟩
          (functionCode label c.scopes.nextSlot slots decls stmts) g := by
      intro g hg
      simp only [List.append_nil, List.mem_cons, List.mem_append] at hg
      rcases hg with rfl | (hg | hg) | hg
      · exact Routine.hasRegion_result (Heading.resultType_ne_array hres)
      · obtain ⟨hsingle, hslot, t, ht, hshape⟩ := hlog₁ g hg
        exact Routine.hasRegion_parameter hsingle hslot (hd₁.declares.owner g hg) ht hshape
      · exact Routine.hasRegion_variable ((hd₂.declares.owner g hg).trans hcur₁) (hlog₂ g hg).1 (hlog₂ g hg).2
      · exact Routine.hasRegion_control (hlog₃ g hg).1 (hlog₃ g hg).2
    refine ⟨_, .enter label result ((hd.declares.allocates.trans ha).trans hleave), List.mem_cons_self ..,
      fun g hg => (heach g hg).named, fun g hg => (heach g hg).text, fun v hv => ?_, fun g hg => (heach g hg).declared⟩
    have hplaces := hd₂.places he₁ hfound₂ v hv
    rw [hcur₂] at hplaces
    refine hplaces.mono (fun g hg => ?_) fun id w hw => (ha.trans hleave).keeps hw
    exact List.mem_cons_of_mem _ (List.mem_append_left _ (List.mem_append_left _ (List.mem_append_right _ hg)))
  · intro id f hf
    refine (hm.uses.extends he₂).function id f ?_
    rw [hd.declares.function?]
    exact hf
  · intro id g hg
    obtain ⟨f, hf, hgrow, hbody⟩ := hm.uses.reflects hg
    rw [hd.declares.function?] at hf
    exact ⟨f, hf, hgrow, hbody⟩
  · intro L hL
    have hL : c₃.scopes.Extends (L.scopes.inside label) := by
      rwa [Compiler.leaving, Scopes.inside_leave hcur₃] at hL
    have hshow₂ : c₂.scopes.Shows (L.scopes.inside label) := by
      intro id v hv
      exact hL.resolve id v (Scopes.resolve?_of_currentTable (hm.uses.keepsTable he₂ id v hv))
    have hstmts := hc₃ (L.contextOf ⟨⟨label, c.scopes.nextSlot, result⟩, ps, block⟩) ⟨hact.symm, hL⟩
    rw [hcount] at hstmts
    exact .mk (hc₁ _ (hd₂.shows he₁ hshow₂)) (hc₂ _ hshow₂) hstmts

end

/-! ## declarations of functions -/

theorem Heading.signature_eq_ok {heading : Heading} {directive : Option Directive} {f : Signature}
    (h : heading.signature directive = .ok f) :
    foldAscii heading.name ≠ "main" ∧
      ∃ ps result, parameterList heading.parameters = .ok ps ∧ heading.resultType = .ok result ∧
        f = ⟨heading.name, ps.map Prod.snd, result, directive, directive.isNone, false⟩ := by
  unfold Heading.signature at h
  by_cases hmain : foldAscii heading.name = "main"
  · rw [if_pos hmain] at h
    cases h
  · rw [if_neg hmain] at h
    by_cases hb : (Builtin.ofName? heading.name).isSome = true
    · rw [if_pos hb] at h
      cases h
    · rw [if_neg hb] at h
      obtain ⟨ps, hps, h⟩ := Scopes.except_bind_eq_ok.mp h
      obtain ⟨result, hres, h⟩ := Scopes.except_bind_eq_ok.mp h
      cases h
      exact ⟨hmain, ps, result, hps, hres, rfl⟩

theorem Scopes.declareFunction_eq_ok {s t : Scopes} {f : Signature}
    (h : s.declareFunction f = .ok t) :
    s.function? f.label = none ∧ t = { s with functions := s.functions.insert f.label f } := by
  unfold Scopes.declareFunction at h
  split at h
  · cases h
  · rename_i hb
    rw [Bool.or_eq_true, not_or, Bool.not_eq_true, Bool.not_eq_true, Table.contains_eq_false] at hb
    cases h
    exact ⟨hb.1, rfl⟩

theorem Scopes.function?_declareFunction {s t : Scopes} {f : Signature}
    (h : s.declareFunction f = .ok t) (id : String) :
    t.function? id = if foldName id = foldName f.label then some f else s.function? id := by
  obtain ⟨_, rfl⟩ := Scopes.declareFunction_eq_ok h
  exact Table.find?_insert ..

theorem Scopes.declareFunction_kept {s t : Scopes} {f : Signature}
    (h : s.declareFunction f = .ok t) : s.Kept t := by
  have hnew := (Scopes.declareFunction_eq_ok h).1
  have hfun : ∀ id g, s.function? id = some g → ∃ k, t.function? id = some k ∧ g.Grows k := by
    intro id g hg
    refine ⟨g, ?_, .refl g⟩
    rw [Scopes.function?_declareFunction h]
    split
    · rename_i hid
      have : s.function? id = s.function? f.label := Table.find?_congr _ hid
      rw [this, hnew] at hg
      cases hg
    · exact hg
  refine ⟨hfun, fun label _ _ _ => ?_⟩
  obtain ⟨_, rfl⟩ := Scopes.declareFunction_eq_ok h
  exact ⟨fun _ _ hv => hv, hfun, fun _ _ hr _ => hr⟩

def Signature.withBody (f : Signature) : Signature := { f with hasBody := true }

theorem Signature.grows_withBody (f : Signature) : f.Grows f.withBody :=
  ⟨rfl, rfl, rfl, rfl, fun _ => rfl, id⟩

theorem Scopes.function?_modifyFunction (s : Scopes) (name id : String)
    (change : Signature → Signature) :
    (s.modifyFunction name change).function? id
      = if foldName id = foldName name then (s.function? id).map change else s.function? id :=
  Table.find?_modify ..

theorem Scopes.modifyFunction_kept {s : Scopes} {name : String} {change : Signature → Signature}
    (hg : ∀ f : Signature, f.Grows (change f)) : s.Kept (s.modifyFunction name change) :=
  ⟨(Scopes.modifyFunction_extends hg s name).function, fun label _ _ _ =>
    Scopes.modifyFunction_extends hg (s.inside label) name⟩

/-- A function is announced: it is new, or it was declared by `forward` with the same types. -/
theorem announce_eq_ok {c d : Compiler} {heading : Heading} {label : String}
    (h : announce heading c = .ok label d) :
    ∃ f, heading.signature none = .ok f ∧
      ((∃ g, c.scopes.function? heading.name = some g ∧ g.hasBody = false ∧
          g.parameters = f.parameters ∧ g.result = f.result ∧ g.label = label ∧
          { c with scopes := c.scopes.modifyFunction heading.name Signature.withBody } = d) ∨
        (f.label = label ∧ ∃ s, c.scopes.declareFunction f = .ok s ∧ { c with scopes := s } = d)) := by
  unfold announce at h
  simp only [bind_eq_ok, check_eq_ok, scopes_eq_ok] at h
  obtain ⟨f, _, ⟨hf, rfl⟩, _, _, ⟨rfl, rfl⟩, h⟩ := h
  refine ⟨f, hf, ?_⟩
  cases hg : c.scopes.function? heading.name with
  | none =>
    simp only [hg, bind_eq_ok, scopes_eq_ok, check_eq_ok, setScopes_eq_ok, pure_eq_ok] at h
    obtain ⟨_, _, ⟨rfl, rfl⟩, s, _, ⟨hs, rfl⟩, _, _, rfl, rfl, rfl⟩ := h
    exact .inr ⟨rfl, s, hs, rfl⟩
  | some g =>
    simp only [hg, bind_eq_ok, ite_eq_ok, scopes_eq_ok, setScopes_eq_ok, throw_eq_ok, pure_eq_ok,
      false_and, exists_false, and_false, or_false, false_or] at h
    obtain ⟨⟨_, hbody⟩, hsame, _, _, ⟨rfl, rfl⟩, _, _, rfl, rfl, rfl⟩ := h
    rw [not_or, Decidable.not_not, Decidable.not_not] at hsame
    exact .inl ⟨g, rfl, hbody, hsame.1, hsame.2, rfl, rfl⟩

/-- What holds between two function declarations.  `P` holds of the names of all functions. -/
structure Compiler.Ready (P : String → Prop) (c : Compiler) : Prop where
  current : c.scopes.current = none
  activation : c.activation = none
  labelled : ∀ id f, c.scopes.function? id = some f →
    foldName f.label = foldName id ∧ P f.label ∧ f.label ≠ "main"
  defined : ∀ id f, c.scopes.function? id = some f → f.directive = none → f.hasBody = true
  pending : ∀ id heading, c.pending.find? id = some heading →
    ∃ ps result f, parameterList heading.parameters = .ok ps ∧ heading.resultType = .ok result ∧
      c.scopes.function? id = some f ∧ f.parameters = ps.map Prod.snd ∧ f.result = result

/-- What is known stays known while no function is given a body. -/
theorem Compiler.Ready.carry {P : String → Prop} {c d : Compiler} (h : c.Ready P)
    (hcur : d.scopes.current = none) (hact : d.activation = none) (hpend : d.pending = c.pending)
    (hkept : ∀ id f, c.scopes.function? id = some f → ∃ g, d.scopes.function? id = some g ∧ f.Grows g)
    (hreflect : ∀ id g, d.scopes.function? id = some g →
      ∃ f, c.scopes.function? id = some f ∧ f.Grows g ∧ g.hasBody = f.hasBody) : d.Ready P := by
  refine ⟨hcur, hact, fun id g hg => ?_, fun id g hg hdir => ?_, fun id heading hp => ?_⟩
  · obtain ⟨f, hf, hgrow, _⟩ := hreflect id g hg
    rw [hgrow.label]
    exact h.labelled id f hf
  · obtain ⟨f, hf, hgrow, hbody⟩ := hreflect id g hg
    rw [hbody]
    exact h.defined id f hf (hgrow.directive.symm.trans hdir)
  · rw [hpend] at hp
    obtain ⟨ps, result, f, hps, hres, hf, hfp, hfr⟩ := h.pending id heading hp
    obtain ⟨g, hg, hgrow⟩ := hkept id f hf
    exact ⟨ps, result, g, hps, hres, hg, hgrow.parameters.trans hfp, hgrow.result.trans hfr⟩

/-- The function that a routine is the body of. -/
structure Routine.Implements (r : Routine) (f : Signature) : Prop where
  label : f.label = r.activation.name
  hasBody : f.hasBody = true
  parameters : f.parameters = r.parameters.map Prod.snd
  result : f.result = r.activation.result

theorem Routine.Implements.grows {r : Routine} {f g : Signature} (h : r.Implements f)
    (hg : f.Grows g) : r.Implements g :=
  ⟨hg.label.trans h.label, hg.hasBody h.hasBody, hg.parameters.trans h.parameters,
    hg.result.trans h.result⟩

structure RoutineAdded (P : String → Prop) (c d : Compiler) (r : Routine) (code : List Line) :
    Prop where
  kept : c.scopes.Kept d.scopes
  globals : d.scopes.globals = c.scopes.globals
  allocates : ∃ log, c.scopes.Allocates log d.scopes ∧ r.Regions d.scopes code log
  ready : d.Ready P
  fresh : ∀ g, c.scopes.function? r.activation.name = some g → g.hasBody = false
  found : ∃ g, d.scopes.function? r.activation.name = some g ∧ r.Implements g
  bodies : ∀ id g, d.scopes.function? id = some g → g.hasBody = true →
    foldName id = foldName r.activation.name ∨ ∃ f, c.scopes.function? id = some f ∧ f.hasBody = true
  code : ∀ L : Layout,
    (d.scopes.inside r.activation.name).Extends (L.scopes.inside r.activation.name) →
    RoutineCode L c.counters r code d.counters

structure NothingAdded (P : String → Prop) (c d : Compiler) (code : List Line) : Prop where
  kept : c.scopes.Kept d.scopes
  sameSlots : c.scopes.SameSlots d.scopes
  ready : d.Ready P
  bodies : ∀ id g, d.scopes.function? id = some g → g.hasBody = true →
    ∃ f, c.scopes.function? id = some f ∧ f.hasBody = true
  code : code = []
  counters : d.counters = c.counters

section
variable {P : String → Prop} {c c₁ d : Compiler} {code : List Line} {r : Routine}

theorem BodyTranslated.ready (hb : BodyTranslated c₁ d r code) (h : c₁.Ready P) : d.Ready P :=
  h.carry hb.current hb.activation hb.pending hb.functions hb.reflects

/-- The body of a function that has been announced. -/
theorem BodyTranslated.added (hb : BodyTranslated c₁ d r code) (h : c₁.Ready P)
    (hkept : c.scopes.Kept c₁.scopes) (hsame : c.scopes.SameSlots c₁.scopes)
    (hcount : c₁.counters = c.counters)
    (hfresh : ∀ g, c.scopes.function? r.activation.name = some g → g.hasBody = false)
    (hfound : ∃ g, c₁.scopes.function? r.activation.name = some g ∧ r.Implements g)
    (hbodies : ∀ id g, c₁.scopes.function? id = some g → g.hasBody = true →
      foldName id = foldName r.activation.name ∨
        ∃ f, c.scopes.function? id = some f ∧ f.hasBody = true) :
    RoutineAdded P c d r code := by
  obtain ⟨log, ha, hlog⟩ := hb.allocates
  have hallocates : ∃ log, c.scopes.Allocates log d.scopes ∧ r.Regions d.scopes code log :=
    ⟨log, .same hsame ha, hlog⟩
  refine ⟨⟨fun id f hf => ?_, fun label f hf hbody => ?_⟩, hb.globals.trans hsame.globals,
    hallocates, hb.ready h, hfresh, ?_, fun id g hg hbody => ?_, fun L hL => ?_⟩
  · obtain ⟨g, hg, hfg⟩ := hkept.functions id f hf
    obtain ⟨k, hk, hgk⟩ := hb.functions id g hg
    exact ⟨k, hk, hfg.trans hgk⟩
  · have hother : foldName label ≠ foldName r.activation.name := by
      intro hname
      have : c.scopes.function? label = c.scopes.function? r.activation.name :=
        Table.find?_congr _ hname
      rw [this] at hf
      rw [hfresh f hf] at hbody
      cases hbody
    exact (hkept.inside label f hf hbody).trans (hb.elsewhere label hother)
  · obtain ⟨g, hg, hr⟩ := hfound
    obtain ⟨k, hk, hgrow⟩ := hb.functions _ g hg
    exact ⟨k, hk, hr.grows hgrow⟩
  · obtain ⟨f, hf, _, hsame⟩ := hb.reflects id g hg
    exact hbodies id f hf (hsame.symm.trans hbody)
  · rw [← hcount]
    exact hb.code L hL

theorem routine?_eq_some {heading : Heading} {label : String} {slot : Nat} {block : Block}
    (h : heading.routine? label slot block = some r) :
    parameterList heading.parameters = .ok r.parameters ∧
      heading.resultType = .ok r.activation.result ∧ r.activation.name = label ∧
      r.activation.slot = slot ∧ r.block = block := by
  unfold Heading.routine? at h
  split at h
  · cases h
    exact ⟨‹_›, ‹_›, rfl, rfl, rfl⟩
  · cases h

/-- A name stands for one function, whatever its case. -/
theorem Scopes.function?_congr (s : Scopes) {id name : String} (h : foldName id = foldName name) :
    s.function? id = s.function? name :=
  Table.find?_congr _ h

def Compiler.announced (c : Compiler) (name : String) : Compiler :=
  { c with
    scopes := c.scopes.modifyFunction name Signature.withBody
    pending := c.pending.erase name }

theorem Compiler.Ready.announced (h : c.Ready P) (name : String) : (c.announced name).Ready P := by
  have hfun : ∀ id f, (c.announced name).scopes.function? id = some f →
      ∃ f₀, c.scopes.function? id = some f₀ ∧ (f = f₀ ∨ f = f₀.withBody) := by
    intro id f hf
    have hfind := c.scopes.function?_modifyFunction name id Signature.withBody
    have hf : (c.scopes.modifyFunction name Signature.withBody).function? id = some f := hf
    rw [hfind] at hf
    split at hf
    · obtain ⟨f₀, hf₀, rfl⟩ := Option.map_eq_some_iff.mp hf
      exact ⟨f₀, hf₀, .inr rfl⟩
    · exact ⟨f, hf, .inl rfl⟩
  refine ⟨h.current, h.activation, fun id f hf => ?_, fun id f hf hdir => ?_, fun id heading hp => ?_⟩
  · obtain ⟨f₀, hf₀, rfl | rfl⟩ := hfun id f hf
    · exact h.labelled id f hf₀
    · exact h.labelled id f₀ hf₀
  · obtain ⟨f₀, hf₀, rfl | rfl⟩ := hfun id f hf
    · exact h.defined id f hf₀ hdir
    · rfl
  · have hp : (c.pending.erase name).find? id = some heading := hp
    rw [Table.find?_erase] at hp
    split at hp
    · cases hp
    · obtain ⟨ps, result, f, hps, hres, hf, hfp, hfr⟩ := h.pending id heading hp
      obtain ⟨g, hg, hgrow⟩ :=
        (Scopes.modifyFunction_extends Signature.grows_withBody c.scopes name).function id f hf
      exact ⟨ps, result, g, hps, hres, hg, hgrow.parameters.trans hfp, hgrow.result.trans hfr⟩

/-- A body for a function that was declared before. -/
theorem announced_added {name : String} {g : Signature} {heading : Heading} {block : Block}
    (h : c.Ready P) (hg : c.scopes.function? name = some g) (hbody : g.hasBody = false)
    (hps : ∀ ps, parameterList heading.parameters = .ok ps → g.parameters = ps.map Prod.snd)
    (hres : ∀ t, heading.resultType = .ok t → g.result = t)
    (hc : compileBody g.label heading block (c.announced name) = .ok code d) :
    ∃ r, heading.routine? g.label c.scopes.nextSlot block = some r ∧ RoutineAdded P c d r code := by
  obtain ⟨r, hr, hname, hb⟩ := compileBody_translates hc
  refine ⟨r, hr, ?_⟩
  obtain ⟨hrp, hrr, _, _, _⟩ := routine?_eq_some hr
  have hfold := (h.labelled name g hg).1
  have hfind := fun id => c.scopes.function?_modifyFunction name id Signature.withBody
  refine hb.added (h.announced name) (Scopes.modifyFunction_kept Signature.grows_withBody)
    ⟨rfl, rfl, rfl⟩ rfl ?_ ?_ ?_
  · intro f hf
    rw [hname, c.scopes.function?_congr hfold, hg] at hf
    cases hf
    exact hbody
  · refine ⟨g.withBody, ?_, ⟨hname.symm, rfl, hps _ hrp, hres _ hrr⟩⟩
    show (c.scopes.modifyFunction name _).function? _ = _
    rw [hfind, hname, if_pos hfold, c.scopes.function?_congr hfold, hg]
    rfl
  · intro id f hf hfb
    have hf : (c.scopes.modifyFunction name Signature.withBody).function? id = some f := hf
    rw [hfind] at hf
    split at hf
    · rename_i hid
      exact .inl (hid.trans (hname ▸ hfold.symm))
    · exact .inr ⟨f, hf, hfb⟩

theorem Compiler.Ready.declared {f : Signature} {s : Scopes} (h : c.Ready P)
    (hs : c.scopes.declareFunction f = .ok s) (hP : P f.label) (hmain : f.label ≠ "main")
    (hdef : f.directive = none → f.hasBody = true) : ({ c with scopes := s } : Compiler).Ready P := by
  have hfind := Scopes.function?_declareFunction hs
  have hcur : s.current = c.scopes.current := by
    obtain ⟨_, rfl⟩ := Scopes.declareFunction_eq_ok hs
    rfl
  refine ⟨hcur.trans h.current, h.activation, fun id g hg => ?_, fun id g hg hdir => ?_,
    fun id heading hp => ?_⟩
  · have hg : s.function? id = some g := hg
    rw [hfind] at hg
    split at hg
    · rename_i hid
      cases hg
      exact ⟨hid.symm, hP, hmain⟩
    · exact h.labelled id g hg
  · have hg : s.function? id = some g := hg
    rw [hfind] at hg
    split at hg
    · cases hg
      exact hdef hdir
    · exact h.defined id g hg hdir
  · obtain ⟨ps, result, f₀, hps, hres, hf₀, hfp, hfr⟩ := h.pending id heading hp
    obtain ⟨g, hg, hgrow⟩ := (Scopes.declareFunction_kept hs).functions id f₀ hf₀
    exact ⟨ps, result, g, hps, hres, hg, hgrow.parameters.trans hfp, hgrow.result.trans hfr⟩

theorem Compiler.Ready.erase (h : c.Ready P) (name : String) :
    ({ c with pending := c.pending.erase name } : Compiler).Ready P := by
  refine ⟨h.current, h.activation, h.labelled, h.defined, fun id heading hp => ?_⟩
  have hp : (c.pending.erase name).find? id = some heading := hp
  rw [Table.find?_erase] at hp
  split at hp
  · cases hp
  · exact h.pending id heading hp

theorem ne_main {name : String} (h : foldAscii name ≠ "main") : name ≠ "main" := by
  rintro rfl
  exact h (by decide)

/-- A function that is declared together with its body. -/
theorem declared_added {f : Signature} {s : Scopes} {heading : Heading} {block : Block}
    (h : c.Ready P) (hP : P heading.name) (hf : heading.signature none = .ok f)
    (hs : c.scopes.declareFunction f = .ok s)
    (hc : compileBody f.label heading block
      { c with scopes := s, pending := c.pending.erase heading.name } = .ok code d) :
    ∃ r, heading.routine? f.label c.scopes.nextSlot block = some r ∧ RoutineAdded P c d r code := by
  obtain ⟨hmain, ps, result, hps, hres, rfl⟩ := Heading.signature_eq_ok hf
  obtain ⟨hnone, hs'⟩ := Scopes.declareFunction_eq_ok hs
  obtain ⟨r, hr, hname, hb⟩ := compileBody_translates hc
  have hslot : s.nextSlot = c.scopes.nextSlot := by rw [hs']
  have hr : heading.routine? heading.name s.nextSlot block = some r := hr
  rw [hslot] at hr
  refine ⟨r, hr, ?_⟩
  obtain ⟨hrp, hrr, _, _, _⟩ := routine?_eq_some hr
  rw [hps] at hrp
  rw [hres] at hrr
  have hfind := Scopes.function?_declareFunction hs
  have hready := (h.declared hs hP (ne_main hmain) fun _ => rfl).erase heading.name
  refine hb.added hready (Scopes.declareFunction_kept hs) (by rw [hs']; exact ⟨rfl, rfl, rfl⟩) rfl ?_ ?_ ?_
  · intro g hg
    rw [hname] at hg
    exact absurd (hnone.symm.trans hg) nofun
  · refine ⟨_, ?_, ⟨hname.symm, rfl, ?_, ?_⟩⟩
    · show s.function? _ = _
      rw [hfind, if_pos (by rw [hname])]
    · rw [← Except.ok.inj hrp]
    · exact Except.ok.inj hrr
  · intro id g hg hgb
    have hg : s.function? id = some g := hg
    rw [hfind] at hg
    split at hg
    · rename_i hid
      exact .inl (hname ▸ hid)
    · exact .inr ⟨g, hg, hgb⟩

theorem definition_translates {heading : Heading} {block : Block} (h : c.Ready P)
    (hP : P heading.name)
    (hc : (FunctionDecl.definition heading block).compile c = .ok code d) :
    ∃ r, (FunctionDecl.definition heading block).routine? c = some r ∧ RoutineAdded P c d r code := by
  rw [FunctionDecl.compile] at hc
  simp only [bind_eq_ok, modify_eq_ok] at hc
  obtain ⟨label, _, ha, _, _, rfl, hc⟩ := hc
  obtain ⟨f, hf, ⟨g, hg, hbody, hgp, hgr, rfl, rfl⟩ | ⟨rfl, s, hs, rfl⟩⟩ := announce_eq_ok ha
  · obtain ⟨_, ps, result, hps, hres, rfl⟩ := Heading.signature_eq_ok hf
    have hlabel : ((c.scopes.function? heading.name).map Signature.label).getD heading.name
        = g.label := by rw [hg]; rfl
    rw [FunctionDecl.routine?]
    show ∃ r, heading.routine? (((c.scopes.function? heading.name).map Signature.label).getD
      heading.name) c.scopes.nextSlot block = some r ∧ _
    rw [hlabel]
    refine announced_added h hg hbody (fun ps' hps' => ?_) (fun t ht => ?_) hc
    · rw [hps] at hps'
      cases hps'
      exact hgp
    · rw [hres] at ht
      cases ht
      exact hgr
  · obtain ⟨_, ps, result, _, _, hfeq⟩ := Heading.signature_eq_ok hf
    have hname : f.label = heading.name := by rw [hfeq]
    have hnone := (Scopes.declareFunction_eq_ok hs).1
    have hlabel : ((c.scopes.function? heading.name).map Signature.label).getD heading.name
        = f.label := by rw [← hname, hnone]; rfl
    rw [FunctionDecl.routine?]
    show ∃ r, heading.routine? (((c.scopes.function? heading.name).map Signature.label).getD
      heading.name) c.scopes.nextSlot block = some r ∧ _
    rw [hlabel]
    exact declared_added h hP hf hs hc

theorem body_translates {name : String} {block : Block} (h : c.Ready P)
    (hc : (FunctionDecl.body name block).compile c = .ok code d) :
    ∃ r, (FunctionDecl.body name block).routine? c = some r ∧ RoutineAdded P c d r code := by
  rw [FunctionDecl.compile] at hc
  simp only [bind_eq_ok, scopes_eq_ok] at hc
  obtain ⟨_, _, ⟨rfl, rfl⟩, hc⟩ := hc
  cases hg : c.scopes.function? name with
  | none => simp only [hg, throw_eq_ok] at hc
  | some g =>
    simp only [hg, bind_eq_ok, ite_eq_ok, throw_eq_ok, false_and, exists_false, and_false, false_or,
      scopes_eq_ok, setScopes_eq_ok, get_eq_ok] at hc
    obtain ⟨_, hbody, _, _, ⟨rfl, rfl⟩, _, _, rfl, _, _, ⟨rfl, rfl⟩, hc⟩ := hc
    rw [Bool.not_eq_true] at hbody
    cases hp : c.pending.find? name with
    | none => simp only [hp, throw_eq_ok] at hc
    | some heading =>
      simp only [hp, bind_eq_ok, modify_eq_ok] at hc
      obtain ⟨_, _, rfl, hc⟩ := hc
      obtain ⟨ps, result, f, hps, hres, hf, hfp, hfr⟩ := h.pending name heading hp
      rw [hg] at hf
      cases hf
      have hlabel : (FunctionDecl.body name block).routine? c
          = heading.routine? g.label c.scopes.nextSlot block := by
        show (c.pending.find? name).bind _ = _
        rw [hp, Option.bind_some]
        show heading.routine? (((c.scopes.function? name).map Signature.label).getD name) _ _ = _
        rw [hg]
        rfl
      rw [hlabel]
      refine announced_added h hg hbody (fun ps' hps' => ?_) (fun t ht => ?_) hc
      · rw [hps] at hps'
        cases hps'
        exact hfp
      · rw [hres] at ht
        cases ht
        exact hfr

theorem directive_translates {heading : Heading} {directive : Directive} (h : c.Ready P)
    (hP : P heading.name)
    (hc : (FunctionDecl.directive heading directive).compile c = .ok code d) :
    NothingAdded P c d code := by
  rw [FunctionDecl.compile] at hc
  simp only [bind_eq_ok, check_eq_ok, scopes_eq_ok, setScopes_eq_ok, ite_eq_ok, modify_eq_ok,
    pure_eq_ok] at hc
  obtain ⟨f, _, ⟨hf, rfl⟩, _, _, ⟨rfl, rfl⟩, s, _, ⟨hs, rfl⟩, _, _, rfl, hc⟩ := hc
  obtain ⟨hmain, ps, result, hps, hres, rfl⟩ := Heading.signature_eq_ok hf
  have hfind := Scopes.function?_declareFunction hs
  have hready := h.declared hs hP (ne_main hmain) nofun
  have hbodies : ∀ id g, s.function? id = some g → g.hasBody = true →
      ∃ f, c.scopes.function? id = some f ∧ f.hasBody = true := by
    intro id g hg hbody
    rw [hfind] at hg
    split at hg
    · cases hg
      cases hbody
    · exact ⟨g, hg, hbody⟩
  have hsame : c.scopes.SameSlots s := by
    rw [(Scopes.declareFunction_eq_ok hs).2]
    exact ⟨rfl, rfl, rfl⟩
  rcases hc with ⟨hfwd, _, _, rfl, rfl, rfl⟩ | ⟨_, rfl, rfl⟩
  · refine ⟨Scopes.declareFunction_kept hs, hsame, ?_, hbodies, rfl, rfl⟩
    refine ⟨hready.current, hready.activation, hready.labelled, hready.defined, fun id k hk => ?_⟩
    have hk : (c.pending.insert heading.name heading).find? id = some k := hk
    rw [Table.find?_insert] at hk
    split at hk
    · rename_i hid
      cases hk
      have hnew : s.function? id = some _ := (hfind id).trans (if_pos hid)
      exact ⟨ps, result, _, hps, hres, hnew, rfl, rfl⟩
    · exact hready.pending id k hk
  · exact ⟨Scopes.declareFunction_kept hs, hsame, hready, hbodies, rfl, rfl⟩

/-! ## all functions of a program -/

structure RoutinesRegions (rs : List Routine) (s : Scopes) (code : List Line) (log : List Region) : Prop where
  named : ∀ g ∈ log, g.NamedIn code
  results : ∀ r ∈ rs, .ofResult r.activation ∈ log
  texts : ∀ g ∈ log, g.shape = .scalar .string → ∃ r ∈ rs, r.HasText g
  places : ∀ r ∈ rs, ∀ v ∈ r.block.declarations, s.Places log (some r.activation.name) v
  declared : ∀ g ∈ log, g.Single ∨ ∃ r ∈ rs, g.owner = some r.activation.name ∧
    ∃ v ∈ r.block.declarations, g.DeclaredBy v.type v.names

theorem Routine.Regions.cons {r : Routine} {rs : List Routine} {s t : Scopes} {code rest : List Line}
    {log log' : List Region} (h₁ : r.Regions s code log) (h₂ : RoutinesRegions rs t rest log')
    (ha : s.Allocates log' t) : RoutinesRegions (r :: rs) t (code ++ rest) (log ++ log') := by
  refine ⟨fun g hg => ?_, fun r' hr' => ?_, fun g hg hstring => ?_,
    List.forall_mem_cons.mpr ⟨fun v hv => ?_, fun r' hr' v hv => ?_⟩, fun g hg => ?_⟩
  · rcases List.mem_append.mp hg with hg | hg
    · exact (h₁.named g hg).left _
    · exact (h₂.named g hg).right _
  · rcases List.mem_cons.mp hr' with rfl | hr'
    · exact List.mem_append_left _ h₁.result
    · exact List.mem_append_right _ (h₂.results r' hr')
  · rcases List.mem_append.mp hg with hg | hg
    · exact ⟨r, List.mem_cons_self .., h₁.texts g hg hstring⟩
    · obtain ⟨r', hr', htext⟩ := h₂.texts g hg hstring
      exact ⟨r', List.mem_cons_of_mem _ hr', htext⟩
  · exact (h₁.places v hv).mono (List.subset_append_left _ _) fun id w hw => ha.keeps hw
  · exact (h₂.places r' hr' v hv).mono (List.subset_append_right _ _) fun _ _ hw => hw
  · rcases List.mem_append.mp hg with hg | hg
    · exact (h₁.declared g hg).imp id fun h => ⟨r, List.mem_cons_self .., h⟩
    · exact (h₂.declared g hg).imp id fun ⟨r', hr', h⟩ => ⟨r', List.mem_cons_of_mem _ hr', h⟩

structure FunctionsTranslated (P : String → Prop) (c d : Compiler) (rs : List Routine)
    (code : List Line) : Prop where
  kept : c.scopes.Kept d.scopes
  globals : d.scopes.globals = c.scopes.globals
  allocates : ∃ log, c.scopes.Allocates log d.scopes ∧ RoutinesRegions rs d.scopes code log
  ready : d.Ready P
  fresh : ∀ r ∈ rs, ∀ g, c.scopes.function? r.activation.name = some g → g.hasBody = false
  found : ∀ r ∈ rs, ∃ g, d.scopes.function? r.activation.name = some g ∧ r.Implements g
  bodies : ∀ id g, d.scopes.function? id = some g → g.hasBody = true →
    (∃ r ∈ rs, foldName id = foldName r.activation.name) ∨
      ∃ f, c.scopes.function? id = some f ∧ f.hasBody = true
  distinct : rs.Pairwise fun r r' => foldName r.activation.name ≠ foldName r'.activation.name
  code : ∀ L : Layout,
    (∀ r ∈ rs, (d.scopes.inside r.activation.name).Extends (L.scopes.inside r.activation.name)) →
    RoutinesCode L c.counters rs code d.counters

theorem FunctionsTranslated.nil (h : c.Ready P) : FunctionsTranslated P c c [] [] :=
  ⟨.refl _, rfl, ⟨[], .refl _, nofun, nofun, nofun, nofun, nofun⟩, h, nofun, nofun, fun _ g hg hb => .inr ⟨g, hg, hb⟩, .nil,
    fun _ _ => .nil⟩

theorem NothingAdded.cons {rs : List Routine} {a b : List Line} (h₁ : NothingAdded P c c₁ a)
    (h₂ : FunctionsTranslated P c₁ d rs b) : FunctionsTranslated P c d rs (a ++ b) := by
  obtain ⟨log, ha, hlog⟩ := h₂.allocates
  have hlog : RoutinesRegions rs d.scopes (a ++ b) log := { hlog with named := fun g hg => (hlog.named g hg).right a }
  refine ⟨h₁.kept.trans h₂.kept, h₂.globals.trans h₁.sameSlots.globals, ⟨log, .same h₁.sameSlots ha, hlog⟩,
    h₂.ready, fun r hr g hg => ?_, h₂.found, fun id g hg hb => ?_, h₂.distinct, fun L hL => ?_⟩
  · obtain ⟨k, hk, hgk⟩ := h₁.kept.functions _ g hg
    have := h₂.fresh r hr k hk
    cases hb : g.hasBody with
    | false => rfl
    | true => rw [hgk.hasBody hb] at this; cases this
  · rcases h₂.bodies id g hg hb with h | ⟨f, hf, hfb⟩
    · exact .inl h
    · exact .inr (h₁.bodies id f hf hfb)
  · rw [h₁.code, List.nil_append, ← h₁.counters]
    exact h₂.code L hL

theorem RoutineAdded.cons {rs : List Routine} {a b : List Line} (h₁ : RoutineAdded P c c₁ r a)
    (h₂ : FunctionsTranslated P c₁ d rs b) : FunctionsTranslated P c d (r :: rs) (a ++ b) := by
  obtain ⟨g₁, hg₁, himp⟩ := h₁.found
  obtain ⟨log₁, ha₁, hlog₁⟩ := h₁.allocates
  obtain ⟨log₂, ha₂, hlog₂⟩ := h₂.allocates
  refine ⟨h₁.kept.trans h₂.kept, h₂.globals.trans h₁.globals,
    ⟨_, ha₁.trans ha₂, hlog₁.cons hlog₂ ha₂⟩, h₂.ready, fun r' hr' g hg => ?_,
    fun r' hr' => ?_, fun id g hg hb => ?_, .cons (fun r' hr' => ?_) h₂.distinct, fun L hL => ?_⟩
  · rcases List.mem_cons.mp hr' with rfl | hr'
    · exact h₁.fresh g hg
    · obtain ⟨k, hk, hgk⟩ := h₁.kept.functions _ g hg
      have := h₂.fresh r' hr' k hk
      cases hb : g.hasBody with
      | false => rfl
      | true => rw [hgk.hasBody hb] at this; cases this
  · rcases List.mem_cons.mp hr' with rfl | hr'
    · obtain ⟨k, hk, hgk⟩ := h₂.kept.functions _ g₁ hg₁
      exact ⟨k, hk, himp.grows hgk⟩
    · exact h₂.found r' hr'
  · rcases h₂.bodies id g hg hb with ⟨r', hr', hid⟩ | ⟨f, hf, hfb⟩
    · exact .inl ⟨r', List.mem_cons_of_mem _ hr', hid⟩
    · rcases h₁.bodies id f hf hfb with hid | h
      · exact .inl ⟨r, List.mem_cons_self .., hid⟩
      · exact .inr h
  · intro hname
    rw [c₁.scopes.function?_congr hname] at hg₁
    have := h₂.fresh r' hr' g₁ hg₁
    rw [himp.hasBody] at this
    cases this
  · refine .cons (h₁.code L ?_) (h₂.code L fun r' hr' => hL r' (List.mem_cons_of_mem _ hr'))
    exact (h₂.kept.inside _ g₁ hg₁ himp.hasBody).trans (hL r (List.mem_cons_self ..))

theorem block?_of_routine? {f : FunctionDecl} (h : f.routine? c = some r) :
    f.block? = some r.block := by
  cases f with
  | definition heading block =>
    have h : heading.routine? _ _ block = some r := h
    rw [FunctionDecl.block?, (routine?_eq_some h).2.2.2.2]
  | directive heading directive => cases h
  | body name block =>
    obtain ⟨heading, _, h⟩ := Option.bind_eq_some_iff.mp h
    rw [FunctionDecl.block?, (routine?_eq_some h).2.2.2.2]

/-- The routines of declarations are their blocks. -/
theorem mem_routinesFrom {fs : List FunctionDecl} (h : r ∈ routinesFrom c fs) :
    ∃ f ∈ fs, f.block? = some r.block := by
  induction fs generalizing c with
  | nil => cases h
  | cons f fs ih =>
    rw [routinesFrom] at h
    split at h
    · rcases List.mem_append.mp h with h | h
      · exact ⟨f, List.mem_cons_self .., block?_of_routine? (Option.mem_toList.mp h)⟩
      · obtain ⟨g, hg, hblock⟩ := ih h
        exact ⟨g, List.mem_cons_of_mem _ hg, hblock⟩
    · cases h

theorem functions_translate {fs : List FunctionDecl} (h : c.Ready P) (hP : ∀ f ∈ fs, P f.name)
    (hc : compileFunctions fs c = .ok code d) :
    FunctionsTranslated P c d (routinesFrom c fs) code := by
  induction fs generalizing c code with
  | nil =>
    rw [compileFunctions, pure_eq_ok] at hc
    obtain ⟨rfl, rfl⟩ := hc
    exact .nil h
  | cons f fs ih =>
    rw [compileFunctions] at hc
    simp only [bind_eq_ok, pure_eq_ok] at hc
    obtain ⟨a, c₁, ha, b, _, hb, rfl, rfl⟩ := hc
    have hPf := hP f (List.mem_cons_self ..)
    have hPs := fun g hg => hP g (List.mem_cons_of_mem _ hg)
    rw [routinesFrom, ha]
    cases f with
    | directive heading directive =>
      have hadd := directive_translates h hPf ha
      exact hadd.cons (ih hadd.ready hPs hb)
    | definition heading block =>
      obtain ⟨r, hr, hadd⟩ := definition_translates h hPf ha
      rw [hr]
      exact hadd.cons (ih hadd.ready hPs hb)
    | body name block =>
      obtain ⟨r, hr, hadd⟩ := body_translates h ha
      rw [hr]
      exact hadd.cons (ih hadd.ready hPs hb)

end

end PascalStack
