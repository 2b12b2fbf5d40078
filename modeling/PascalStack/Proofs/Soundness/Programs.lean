import PascalStack.Proofs.Soundness.Evaluations
import PascalStack.Proofs.Soundness.Regions

/-!
# Compiled programs keep to types

* `Program.DeclaresArray`, `Program.HasSlot`   the arrays of a program with their bounds, and the types of its slots;
* `Program.InBounds`     an access to an element has its index within the bounds;
* `Program.setting`      what is known of the slots, elements and functions of a program;
* `Program.Compiled.admits`, `Program.Compiled.linked`   names and functions keep to it;
* `type_soundness`       in runs with all indices within the bounds, values have their types.
-/

namespace PascalStack

/-! ## slots and arrays of a program -/

/-- The index from which the number of a slot was computed, `reach_indexOf`. -/
def Variable.indexOf (v : Variable) (number : Int64) : Int64 := number - Int64.ofNat v.slot + v.low

theorem Variable.reach_indexOf (v : Variable) (number : Int64) : v.reach (v.indexOf number) = number := by
  unfold reach indexOf
  rw [Int64.add_sub_cancel, Int64.sub_add_cancel]

section
variable (p : Program) (L : Layout)

/-- A name is that of an array that is declared with the bounds `low` and `high`. -/
structure Program.DeclaresArray (owner : Option String) (id : String) (v : Variable) (low high : Int64) : Prop where
  place : L.scopes.declared? owner id = some v
  shape : ∃ t, v.shape = .array low t
  declared : ∃ block d lowExpr highExpr element,
    ((owner = none ∧ block = p.block) ∨ ∃ r ∈ L.routines, owner = some r.activation.name ∧ block = r.block) ∧
      d ∈ block.declarations ∧ id ∈ d.names ∧ d.type = .array lowExpr highExpr element ∧
      lowExpr.constant? = some low ∧ highExpr.constant? = some high

/-- The slots of variables and elements, with their types. -/
inductive Program.HasSlot : Nat → DataType → Prop
  | plain {owner : Option String} {id : String} {v : Variable} : L.scopes.declared? owner id = some v →
      v.type ≠ .array → HasSlot v.slot v.type
  | element {owner : Option String} {id : String} {v : Variable} {low high : Int64} {n : Nat} :
      p.DeclaresArray L owner id v low high → v.slot ≤ n → n < v.slot + (high.toInt - low.toInt + 1).toNat →
      HasSlot n v.element

/-- If the instruction at `q` is an access to an element, then its index is within the bounds of the array. -/
def Program.InBounds (code : Code) (q : Nat) (t : State) : Prop :=
  ∀ {j owner id v low high o number rest}, q = j + 4 → AddressAt code j v → p.DeclaresArray L owner id v low high →
    code[q]? = some (.ok o) → o.isIndirect = true → t.stack = .integer number :: rest →
    low ≤ v.indexOf number ∧ v.indexOf number ≤ high

/-- What is known of the slots, elements and functions of a program: a slot holds a value of the type of its
region, and the texts among the global variables are written before any function is called. -/
def Program.setting (img : Image) (log : List Region) : Setting where
  code := img.code
  fits n v := ∀ g ∈ log, g.slot ≤ n → n < g.slot + g.size → g.valueType.Holds v
  within q number := ∀ {j owner id v low high}, q = j + 4 → AddressAt img.code j v →
    p.DeclaresArray L owner id v low high → low ≤ v.indexOf number ∧ v.indexOf number ≤ high
  entry e ts t := ∃ r ∈ L.routines, img.target? r.activation.name = some e ∧ ts = r.parameters.map Prod.snd ∧
    t = r.activation.result
  globals n := ∃ id v, L.scopes.declared? none id = some v ∧ v.type = .string ∧ v.slot = n

end

/-! ## names and their regions -/

namespace Scopes
variable {s : Scopes} {id : String} {v : Variable}

theorem declared?_congr {owner owner' : Option String} {id' : String} (s : Scopes)
    (howner : owner.map foldName = owner'.map foldName) (hid : foldName id = foldName id') :
    s.declared? owner id = s.declared? owner' id' := by
  cases owner with
  | none =>
    cases owner' with
    | none => exact Table.find?_congr _ hid
    | some label' => cases howner
  | some label =>
    cases owner' with
    | none => cases howner
    | some label' =>
      have hlabel : foldName label = foldName label' := Option.some.inj howner
      rw [declared?, declared?, Table.find?_congr _ hlabel]
      congr 1
      funext table
      exact Table.find?_congr _ hid

theorem resolve?_congr {id' : String} (s : Scopes) (hid : foldName id = foldName id') :
    s.resolve? id = s.resolve? id' := by
  unfold resolve?
  rw [Table.find?_congr _ hid, Table.find?_congr _ hid]

/-- What is declared in the function at hand is in sight. -/
theorem resolve?_of_declared? (h : s.declared? s.current id = some v) : s.resolve? id = some v := by
  unfold resolve? localTable
  cases hc : s.current with
  | none =>
    rw [hc] at h
    exact h
  | some label =>
    rw [hc] at h
    obtain ⟨table, htable, hv⟩ := Option.bind_eq_some_iff.mp h
    simp only [Option.bind_some, htable, Option.getD_some, hv]

end Scopes

section
variable {p : Program} {L : Layout} {code : List Line} {log : List Region} {img : Image}

namespace Program.Regions

/-- The region of a declared name. -/
theorem of_declared? (h : p.Regions L code log) {owner : Option String} {id : String} {v : Variable}
    (hv : L.scopes.declared? owner id = some v) : ∃ g ∈ log, Region.Of owner id v g := by
  rcases h.allocates.declared? hv with hnone | hof
  · cases owner <;> cases hnone
  · exact hof

/-- The region of an array with its bounds. -/
theorem of_declaresArray (h : p.Regions L code log) {owner : Option String} {id : String} {v : Variable}
    {low high : Int64} (hv : p.DeclaresArray L owner id v low high) :
    ∃ g ∈ log, g.slot = v.slot ∧ g.shape = v.shape ∧ g.size = (high.toInt - low.toInt + 1).toNat := by
  obtain ⟨block, d, lowExpr, highExpr, element, hblock, hd, hid, htype, hlow, hhigh⟩ := hv.declared
  have hplaces : L.scopes.Places log owner d := by
    rcases hblock with ⟨rfl, rfl⟩ | ⟨r, hr, rfl, rfl⟩
    · exact h.places d hd
    · exact h.routinePlaces r hr d hd
  obtain ⟨g, hg, hdecl, hplace⟩ := hplaces id hid
  cases hv.place.symm.trans hplace
  refine ⟨g, hg, rfl, rfl, ?_⟩
  rcases hdecl.shape with ⟨_, hscalar, _⟩ | ⟨_, _, _, _, _, _, htype', _, hlow', hhigh', hsize, _⟩
  · rw [htype] at hscalar
    cases hscalar
  · cases htype.symm.trans htype'
    cases hlow.symm.trans hlow'
    cases hhigh.symm.trans hhigh'
    exact arraySize?_eq hsize

/-- An array in sight is one that is declared. -/
theorem declaresArray (h : p.Regions L code log) {g : Region} (hg : g ∈ log) {owner : Option String} {id : String}
    {v : Variable} (hv : L.scopes.declared? owner id = some v) (hof : Region.Of owner id v g)
    (harray : v.type = .array) : ∃ low high, p.DeclaresArray L g.owner g.name v low high := by
  have hplace : L.scopes.declared? g.owner g.name = some v :=
    (L.scopes.declared?_congr hof.owner hof.name).trans hv
  have hvariable : g.asVariable = v := by
    unfold Region.asVariable
    rw [hof.slot, hof.shape]
  obtain ⟨low, high, hbounds⟩ := h.isArray hg (hvariable ▸ harray)
  exact ⟨low, high, hplace, hof.shape ▸ hbounds.shape, hbounds.declared⟩

section
variable (h : p.Regions L code log) (hslots : (slotsOf code).dedup.length ≤ maxGlobals)
include h hslots

/-- The slots of a region have its type. -/
theorem has {g : Region} (hg : g ∈ log) {n : Nat} (hle : g.slot ≤ n) (hlt : n < g.slot + g.size) :
    (p.setting L img log).Has n g.valueType := by
  obtain ⟨hcons, hstop⟩ := h.consecutive_of_slots hslots
  refine ⟨Nat.lt_of_lt_of_le hlt (hstop g hg), fun v => ⟨fun hv => hv g hg hle hlt, fun hv g' hg' hle' hlt' => ?_⟩⟩
  by_cases hsame : g = g'
  · exact hsame ▸ hv
  · rcases hcons.disjoint hg hg' hsame with hapart | hapart <;> omega

/-- The slot of a variable of one value. -/
theorem has_plain {owner : Option String} {id : String} {v : Variable} (hv : L.scopes.declared? owner id = some v)
    (htype : v.type ≠ .array) : (p.setting L img log).Has v.slot v.type := by
  obtain ⟨g, hg, hof⟩ := h.of_declared? hv
  have hshape : g.shape = .scalar v.type := by
    rw [hof.shape]
    unfold Variable.type at htype ⊢
    split
    · assumption
    · rename_i harray
      rw [harray] at htype
      exact absurd rfl htype
  obtain ⟨hsize, hvalue⟩ := h.scalar hg hshape
  rw [← hvalue, ← hof.slot]
  exact h.has hslots hg (Nat.le_refl _) (by omega)

/-- The slots of the elements of an array. -/
theorem has_element {owner : Option String} {id : String} {v : Variable} {low high : Int64}
    (hv : p.DeclaresArray L owner id v low high) {n : Nat} (hle : v.slot ≤ n)
    (hlt : n < v.slot + (high.toInt - low.toInt + 1).toNat) : (p.setting L img log).Has n v.element := by
  obtain ⟨g, hg, hslot, hshape, hsize⟩ := h.of_declaresArray hv
  have hvalue : g.valueType = v.element := by
    obtain ⟨t, ht⟩ := hv.shape
    rw [Region.valueType, Variable.element, hshape, ht]
  rw [← hvalue]
  exact h.has hslots hg (by omega) (by omega)

end

end Program.Regions

/-! ## names in sight -/

/-- Scopes with the names of a layout, seen from some function or from the main block. -/
structure Layout.Shares (L : Layout) (S : Scopes) : Prop where
  globals : S.globals = L.scopes.globals
  locals : S.locals = L.scopes.locals
  functions : S.functions = L.scopes.functions

theorem Layout.Shares.declared? {S : Scopes} (hS : L.Shares S) (owner : Option String) (id : String) :
    S.declared? owner id = L.scopes.declared? owner id := by
  cases owner with
  | none => rw [Scopes.declared?, Scopes.declared?, hS.globals]
  | some label => rw [Scopes.declared?, Scopes.declared?, hS.locals]

theorem Layout.Shares.of_resolve? {S : Scopes} (hS : L.Shares S) {id : String} {v : Variable}
    (hr : S.resolve? id = some v) :
    L.scopes.declared? S.current id = some v ∨ L.scopes.declared? none id = some v := by
  rw [← hS.declared?, ← hS.declared?]
  exact Scopes.resolve?_declared? hr

theorem RoutineCode.target {r : Routine} {k k' : Counters} {lines : List Line} {a b : Nat} {c : Code}
    {targets : String → Option Nat} (h : RoutineCode L k r lines k') (hp : Placed c targets a lines b) :
    targets r.activation.name = some a := by
  cases h with
  | mk _ _ _ =>
    obtain ⟨_, hp, -⟩ := placed_append.mp hp
    obtain ⟨_, hp, -⟩ := placed_append.mp hp
    obtain ⟨_, hp, -⟩ := placed_append.mp hp
    obtain ⟨_, hlabel, -⟩ := placed_append.mp hp
    exact hlabel.label.1

theorem ParameterSlots.mem {S : Scopes} {ps : List (String × DataType)} {slots : List Nat}
    (h : ParameterSlots S ps slots) {name : String} {t : DataType} (hmem : (name, t) ∈ ps) :
    ∃ slot ∈ slots, S.resolve? name = some ⟨slot, .scalar t⟩ := by
  induction h with
  | nil => cases hmem
  | @cons _ _ slot _ _ hr _ ih =>
    rcases List.mem_cons.mp hmem with heq | hmem
    · cases heq
      exact ⟨slot, List.mem_cons_self .., hr⟩
    · obtain ⟨slot, hslot, hr⟩ := ih hmem
      exact ⟨slot, List.mem_cons_of_mem _ hslot, hr⟩

theorem NamesCode.mem {S : Scopes} {type : TypeDenoter} {names : List String} {lines : List Line}
    (h : NamesCode S type names lines) {name : String} {t : DataType} (ht : DataType.ofScalar? type = some t)
    (hmem : name ∈ names) : ∃ slot ∈ slotsOf lines, S.resolve? name = some ⟨slot, .scalar t⟩ := by
  induction h with
  | nil => cases hmem
  | @scalar t' name' names slot rest ht' hr _ ih =>
    cases ht.symm.trans ht'
    rw [slotsOf_append]
    rcases List.mem_cons.mp hmem with rfl | hmem
    · refine ⟨slot, List.mem_append_left _ ?_, hr⟩
      cases t <;> exact List.mem_singleton_self slot
    · obtain ⟨slot, hslot, hr⟩ := ih hmem
      exact ⟨slot, List.mem_append_right _ hslot, hr⟩
  | array htype =>
    rw [htype] at ht
    cases ht

/-- The slots of declared variables are written by their declarations. -/
theorem DeclarationsCode.mem {S : Scopes} {vs : List VarDecl} {lines : List Line} (h : DeclarationsCode S vs lines)
    {d : VarDecl} (hd : d ∈ vs) {name : String} {t : DataType} (ht : DataType.ofScalar? d.type = some t)
    (hname : name ∈ d.names) : ∃ slot ∈ slotsOf lines, S.resolve? name = some ⟨slot, .scalar t⟩ := by
  induction h with
  | nil => cases hd
  | cons hnames _ ih =>
    rw [slotsOf_append]
    rcases List.mem_cons.mp hd with rfl | hd
    · obtain ⟨slot, hslot, hr⟩ := hnames.mem ht hname
      exact ⟨slot, List.mem_append_left _ hslot, hr⟩
    · obtain ⟨slot, hslot, hr⟩ := ih hd
      exact ⟨slot, List.mem_append_right _ hslot, hr⟩

theorem Variable.shape_of_type {v : Variable} {t : DataType} (h : v.type = t) (ht : t ≠ .array) :
    v.shape = .scalar t := by
  unfold Variable.type at h
  split at h
  · rename_i hshape
    rw [hshape, h]
  · exact absurd h.symm ht

/-- A text of the declarations of a block is written by them. -/
theorem DeclarationsCode.text_mem {S : Scopes} {vs : List VarDecl} {lines : List Line}
    (h : DeclarationsCode S vs lines) {d : VarDecl} (hd : d ∈ vs) {g : Region} (hg : g.DeclaredBy d.type d.names)
    (hshape : g.shape = .scalar .string) :
    ∃ slot ∈ slotsOf lines, S.resolve? g.name = some ⟨slot, .scalar .string⟩ := by
  rcases hg.shape with ⟨t, ht, _, hscalar⟩ | ⟨_, _, _, _, _, _, _, _, _, _, _, harray⟩
  · cases hshape.symm.trans hscalar
    exact h.mem hd ht hg.name
  · cases hshape.symm.trans harray

/-! ## the setting of a program -/

structure Program.Compiled (p : Program) (L : Layout) (code : List Line) (img : Image) (log : List Region) : Prop where
  layout : p.layout? = some L
  regions : p.Regions L code log
  sound : L.Sound IsFunctionLabel
  placed : RoutinesPlaced img.code img.target? L
  slots : (slotsOf code).dedup.length ≤ maxGlobals
  arrays : p.textArrayFree = true
  results : p.textResultFree = true

namespace Program.Compiled
variable (h : p.Compiled L code img log) {S : Scopes} (hS : L.Shares S)
include h hS

/-- Names have the types of their regions, in the main block and in functions. -/
theorem admits : (p.setting L img log).Admits img.target? S where
  slot {id v} hr htype := by
    rcases hS.of_resolve? hr with hv | hv
    · exact h.regions.has_plain h.slots hv htype
    · exact h.regions.has_plain h.slots hv htype
  element {id v} hr harray j hat number hwithin := by
    have hdeclared : ∃ owner, L.scopes.declared? owner id = some v := (hS.of_resolve? hr).elim (⟨_, ·⟩) (⟨_, ·⟩)
    obtain ⟨owner, hv⟩ := hdeclared
    obtain ⟨g, hg, hof⟩ := h.regions.of_declared? hv
    obtain ⟨low, high, hbounds⟩ := h.regions.declaresArray hg hv hof harray
    obtain ⟨t, hshape⟩ := hbounds.shape
    have hlow : v.low = low := by rw [Variable.low, hshape]
    have helement : v.element = t := by rw [Variable.element, hshape]
    obtain ⟨g', hg', hslot, -, hsize⟩ := h.regions.of_declaresArray hbounds
    have hstop := (h.regions.consecutive_of_slots h.slots).2 g' hg'
    rw [hslot, hsize] at hstop
    obtain ⟨hle, hle'⟩ := hwithin rfl hat hbounds
    obtain ⟨hnumber, _⟩ := Variable.elementSlot?_eq_some.mp
      (Variable.elementSlot?_of_mem (v := v) (hlow ▸ hle) hle' (hlow ▸ hstop))
    rw [v.reach_indexOf, hlow] at hnumber
    rw [Int64.le_iff_toInt_le] at hle hle'
    refine ⟨_, hnumber, h.regions.has_element h.slots hbounds (Nat.le_add_right _ _) (by omega), ?_⟩
    rw [helement]
    exact h.regions.holds_zero h.layout h.arrays hg (hof.shape.trans hshape)
  callable {name f} hf := by
    have hf' : L.scopes.Callable name f := ⟨by rw [← hf.function, Scopes.function?, Scopes.function?, hS.functions],
      hf.called, hf.internal⟩
    obtain ⟨r, hr, himplements⟩ := h.sound.callable name f hf'
    obtain ⟨_, _, _, a, _, hcode, hseg⟩ := h.placed r hr
    have htarget := hcode.target hseg
    exact ⟨a, himplements.label ▸ htarget, r, hr, htarget, himplements.parameters, himplements.result⟩

/-- The slots of the arrays that a block declares may hold zero. -/
theorem clears {d : VarDecl} (hplaces : L.scopes.Places log S.current d) :
    (p.setting L img log).Clears S d.type d.names := by
  intro low high element l hi size t name base htype ht hl hh hsize hname hr n hle hlt
  obtain ⟨g, hg, hdecl, hplace⟩ := hplaces name hname
  rw [← hS.declared?] at hplace
  obtain ⟨rfl, hshape⟩ := Variable.mk.inj (Option.some.inj (hr.symm.trans (Scopes.resolve?_of_declared? hplace)))
  rcases hdecl.shape with ⟨_, _, _, hscalar⟩ | ⟨_, _, _, _, _, _, htype', _, hl', hh', hsize', _⟩
  · cases hshape.trans hscalar
  · cases htype.symm.trans htype'
    cases hl.symm.trans hl'
    cases hh.symm.trans hh'
    cases hsize.symm.trans hsize'
    have hhas : (p.setting L img log).Has n g.valueType := h.regions.has h.slots hg hle hlt
    rw [Region.valueType, ← hshape] at hhas
    exact ⟨hhas.lt, (hhas.fits _).mpr (h.regions.holds_zero h.layout h.arrays hg hshape.symm)⟩

end Program.Compiled

namespace Program.Compiled
variable (h : p.Compiled L code img log)
include h

/-- The slot of the result of a function. -/
theorem has_result {r : Routine} (hr : r ∈ L.routines) :
    (p.setting L img log).Has r.activation.slot r.activation.result :=
  h.regions.has h.slots (h.regions.results r hr) (Nat.le_refl _) (Nat.lt_succ_self _)

/-- The texts in sight in a function are global, or its parameters and declarations write them. -/
theorem text_written {r : Routine} (hr : r ∈ L.routines) {slots : List Nat} {declarations : List Line}
    (hparameters : ParameterSlots (L.contextOf r).scopes r.parameters slots)
    (hdeclarations : DeclarationsCode (L.contextOf r).scopes r.block.declarations declarations) {id : String}
    {v : Variable} (hv : (L.contextOf r).scopes.resolve? id = some v) (hstring : v.type = .string) :
    (p.setting L img log).globals v.slot ∨ v.slot ∈ slots ∨ v.slot ∈ slotsOf declarations := by
  have hS : L.Shares (L.contextOf r).scopes := ⟨rfl, rfl, rfl⟩
  rcases hS.of_resolve? hv with hown | hglobal
  · obtain ⟨g, hg, hof⟩ := h.regions.of_declared? hown
    have hshape : g.shape = .scalar .string := hof.shape.trans (Variable.shape_of_type hstring nofun)
    -- the slot that a name of the region has is that of the variable
    have hslot {slot : Nat} (hresolve : (L.contextOf r).scopes.resolve? g.name = some ⟨slot, .scalar .string⟩) :
        slot = v.slot := by
      rw [Scopes.resolve?_congr _ hof.name] at hresolve
      cases hv.symm.trans hresolve
      rfl
    rcases h.regions.texts g hg hshape with ⟨hnone, _⟩ | ⟨r', hr', rfl | ⟨howner, htext⟩⟩
    · have howner := hof.owner
      rw [hnone] at howner
      cases howner
    · have hzero := Program.result_holds_zero h.layout h.results hr'
      rw [Shape.scalar.inj hshape] at hzero
      cases hzero
    · have hfold := hof.owner
      rw [howner] at hfold
      obtain rfl := h.sound.eq_of_foldName hr' hr (Option.some.inj hfold)
      rcases htext with hparameter | ⟨d, hd, hdecl⟩
      · obtain ⟨slot, hmem, hresolve⟩ := hparameters.mem hparameter
        exact .inr (.inl (hslot hresolve ▸ hmem))
      · obtain ⟨slot, hmem, hresolve⟩ := hdeclarations.text_mem hd hdecl hshape
        exact .inr (.inr (hslot hresolve ▸ hmem))
  · exact .inl ⟨id, v, hglobal, hstring, rfl⟩

/-- The texts among the global variables are written by their declarations. -/
theorem globals_written {declarations : List Line}
    (hdeclarations : DeclarationsCode L.scopes p.block.declarations declarations) {n : Nat}
    (hn : (p.setting L img log).globals n) : n ∈ slotsOf declarations := by
  obtain ⟨id, v, hv, hstring, rfl⟩ := hn
  obtain ⟨g, hg, hof⟩ := h.regions.of_declared? hv
  have hshape : g.shape = .scalar .string := hof.shape.trans (Variable.shape_of_type hstring nofun)
  have hnone : g.owner = none := Option.map_eq_none_iff.mp hof.owner
  rcases h.regions.texts g hg hshape with ⟨_, d, hd, hdecl⟩ | ⟨r, _, rfl | ⟨howner, _⟩⟩
  · obtain ⟨slot, hmem, hresolve⟩ := hdeclarations.text_mem hd hdecl hshape
    have hin : L.scopes.resolve? id = some v := Scopes.resolve?_of_declared? (h.sound.current ▸ hv)
    rw [Scopes.resolve?_congr _ hof.name] at hresolve
    cases hin.symm.trans hresolve
    exact hmem
  · cases hnone
  · cases hnone.symm.trans howner

/-- Functions keep to their types. -/
theorem linked (hset : L.SetFree) : (p.setting L img log).Linked := by
  rintro e ts t ⟨r, hr, htarget, rfl, rfl⟩
  obtain ⟨k, lines, k', a, b, hcode, hplaced⟩ := h.placed r hr
  cases htarget.symm.trans (hcode.target hplaced)
  refine hcode.isFunction hplaced (hset r hr) (Program.parameters_ne_array h.layout hr)
    (Program.result_holds_zero h.layout h.results hr) fun hparameters hdeclarations => ?_
  have hS : L.Shares (L.contextOf r).scopes := ⟨rfl, rfl, rfl⟩
  refine ⟨h.admits hS, fun d hd => h.clears hS (h.regions.routinePlaces r hr d hd), ?_, fun id v hv hstring =>
    h.text_written hr hparameters hdeclarations hv hstring⟩
  rintro _ ⟨⟩
  exact h.has_result hr

/-- The main block keeps to types up to the instruction that stops the run. -/
theorem mainPart {q : Nat} (hprogram : ProgramCode L p code) (hplaced : Placed img.code img.target? 0 code q)
    (hset : stmtsSetFree p.block.statements = true) :
    ∃ (P : Part) (R' : Nat → Prop), P.Sound (p.setting L img log) ∧ P.result = [] ∧
      img.code[P.last]? = some (.ok (.basic .stop)) ∧
      Path (p.setting L img log) P.labels P.ready 0 (fun _ => False) [] P.last R' P.result := by
  refine hprogram.mainPart (W := p.setting L img log) hplaced hset fun {declarations} hdeclarations => ?_
  have hS : L.Shares L.context.scopes := ⟨rfl, rfl, rfl⟩
  refine ⟨⟨h.admits hS, fun d hd => h.clears hS ?_, nofun, fun id v hv hstring => .inl ?_⟩, fun n hn =>
    h.globals_written hdeclarations hn⟩
  · have hcurrent : L.context.scopes.current = none := h.sound.current
    rw [hcurrent]
    exact h.regions.places d hd
  · rcases hS.of_resolve? hv with hglobal | hglobal
    · have hcurrent : L.context.scopes.current = none := h.sound.current
      rw [hcurrent] at hglobal
      exact ⟨id, v, hglobal, hstring, rfl⟩
    · exact ⟨id, v, hglobal, hstring, rfl⟩

end Program.Compiled

/-! ## runs -/

theorem Program.HasSlot.has (h : p.Regions L code log) (hslots : (slotsOf code).dedup.length ≤ maxGlobals) {n : Nat}
    {t : DataType} (hn : p.HasSlot L n t) : (p.setting L img log).Has n t := by
  cases hn with
  | plain hv htype => exact h.has_plain hslots hv htype
  | element hv hle hlt => exact h.has_element hslots hv hle hlt

end

/-- A run of some steps goes on from where fewer steps have come. -/
theorem runFrom_add {code : Code} {j p a : Nat} {s t : State} (h : runFrom code j p s = (.suspended a, t)) (k : Nat) :
    runFrom code (j + k) p s = runFrom code k a t := by
  induction j generalizing p s with
  | zero =>
    rw [runFrom] at h
    split at h
    · cases h
      rw [Nat.zero_add]
    · cases h
  | succ j ih =>
    rw [Nat.succ_add, runFrom]
    rw [runFrom] at h
    cases hs : step code p s with
    | mk status u =>
      rw [hs] at h
      cases status with
      | suspended next => exact ih h
      | finished => cases h
      | failed f => cases h

/-- All accesses to elements in the first steps of a run have their indices within the bounds. -/
def Program.RunsInBounds (p : Program) (L : Layout) (code : Code) (input : List UInt8) (steps : Nat) : Prop :=
  ∀ j < steps, ∀ q t, runFrom code j 0 (.initial input) = (.suspended q, t) → p.InBounds L code q t

section
variable {p : Program} {L : Layout} {code : List Line} {log : List Region} {img : Image} {P : Part}
  {input : List UInt8} {steps : Nat}

theorem Program.RunsInBounds.within (h : p.RunsInBounds L img.code input steps) :
    (p.setting L img log).RunsWithin steps 0 (.initial input) :=
  fun j hj q t hrun _ _ _ hop ho hstack _ _ _ _ _ _ hq hat hdeclares => h j hj q t hrun hq hat hdeclares hop ho hstack

/-- Where a run of a program comes to. -/
theorem Program.RunsInBounds.reached (h : p.RunsInBounds L img.code input steps)
    (hlinked : (p.setting L img log).Linked) (hP : P.Sound (p.setting L img log))
    (hstop : img.code[P.last]? = some (.ok (.basic .stop))) {R' : Nat → Prop}
    (hpath : Path (p.setting L img log) P.labels P.ready 0 (fun _ => False) [] P.last R' P.result) {j : Nat}
    (hj : j ≤ steps) : Running.Reached (p.setting L img log) P [] [] (runFrom img.code j 0 (.initial input)) := by
  have hat : P.At (p.setting L img log) (State.initial input).memory 0 [] :=
    ⟨_, [], R', fun _ hn => hn.elim, .nil, hpath⟩
  have hstart : Running (p.setting L img log) P [] [] (State.initial input).memory 0 [] [] := .here hat
  refine hstart.run hlinked hP (fun _ => .inr rfl) (fun i hi => h.within i (Nat.lt_of_lt_of_le hi hj)) fun _ _ t _ _ => ?_
  show PascalStack.step img.code P.last t = _
  rw [PascalStack.step, hstop]
  rfl

end

section
variable {source : String} {code : List Line} {p : Program} {L : Layout}

/-- **Type soundness.**  In a run with all indices within their bounds, what is read from the slot of a variable
is a value of its type, expressions leave values of the types that are inferred for them, and the run stops with
no other faults than those that are expected. -/
theorem type_soundness (hcompile : compile source = .ok code) (htree : (report source).accepted = .ok p)
    (hlayout : p.layout? = some L) (hset : p.setFree = true) (harrays : p.textArrayFree = true)
    (hresults : p.textResultFree = true) (hnames : ∀ f ∈ p.block.functions, ¬ IsStatementLabel f.name)
    (hslots : (slotsOf code).dedup.length ≤ maxGlobals) :
    ∃ img, load (codeText code) = .ok img ∧ ∀ input limit,
      p.RunsInBounds L img.code input (limit.getD unlimited) →
      (∀ j < limit.getD unlimited, ∀ q t, runFrom img.code j 0 (.initial input) = (.suspended q, t) →
        ∀ o slot type, img.code[q]? = some (.ok o) → o.reads t.stack = some slot → p.HasSlot L slot type →
          type.Holds (t.memory.slots slot)) ∧
      (∀ j k a b s u, runFrom img.code j 0 (.initial input) = (.suspended a, s) → j + k ≤ limit.getD unlimited →
        Evaluates img.code a s k b u → ∀ S, (S = L.context.scopes ∨ ∃ r ∈ L.routines, S = (L.contextOf r).scopes) →
        ∀ e lines type, e.setFree = true → ExprCode S e lines → S.infer e = .ok type →
          Placed img.code img.target? a lines b → ∃ v, u.stack = v :: s.stack ∧ type.Holds v) ∧
      ∀ f t, run img.code limit (.initial input) = (some f, t) → f.Expected := by
  obtain ⟨_, img, log, hlayout', hsound, hregions, hprogram, hload, -⟩ := compile_loads hcompile htree hset hnames
  cases hlayout.symm.trans hlayout'
  obtain ⟨_, q, hload', hplaced⟩ := hprogram.loads hsound
  cases hload.symm.trans hload'
  have hcompiled : p.Compiled L code img log :=
    ⟨hlayout, hregions, hsound, hprogram.routinesPlaced hplaced, hslots, harrays, hresults⟩
  have hlinked := hcompiled.linked (Program.layout_setFree hlayout hset)
  obtain ⟨P, R', hP, -, hstop, hpath⟩ := hcompiled.mainPart hprogram hplaced (Block.statements_setFree hset)
  refine ⟨img, hload, fun input limit hbounds => ⟨fun j hj q t hrun o slot type hop hread hslot => ?_,
    fun j k a b s u hrun hle heval S hS e lines type hfree hcode hinfer hat => ?_, fun f t hrun => ?_⟩⟩
  · have hreached := hbounds.reached hlinked hP hstop hpath (Nat.le_of_lt hj)
    rw [hrun] at hreached
    rcases hreached.2.step hlinked hP hreached.1 (hbounds.within j hj q t hrun) with ⟨rfl, -, -⟩ | ⟨hreads, -⟩
    · cases hop.symm.trans hstop
      cases hread
    · exact ((hslot.has hregions hslots).fits _).mp (hreads o slot hop hread)
  · have hreached := hbounds.reached hlinked hP hstop hpath (Nat.le_trans (Nat.le_add_right j k) hle)
    rw [hrun] at hreached
    have hshares : L.Shares S := by
      rcases hS with rfl | ⟨r, _, rfl⟩
      · exact ⟨rfl, rfl, rfl⟩
      · exact ⟨rfl, rfl, rfl⟩
    refine hreached.2.evaluates hlinked (hcompiled.admits hshares)
      (hregions.slotsFit hshares.locals hshares.globals) (.inr hstop) hreached.1 hfree hcode hinfer hat heval ?_
    intro i hi q' t' hi'
    exact hbounds.within (j + i) (by omega) q' t' ((runFrom_add hrun i).trans hi')
  · have hreached := hbounds.reached hlinked hP hstop hpath (Nat.le_refl _)
    unfold run at hrun
    cases hend : runFrom img.code (limit.getD unlimited) 0 (.initial input) with
    | mk status u =>
      simp only [hend] at hrun hreached
      cases status with
      | finished => cases hrun
      | failed f' =>
        cases hrun
        exact hreached
      | suspended q' =>
        cases hrun
        exact .stepLimit _

/-! ## bounds that can be computed -/

def Layout.arraysOf (L : Layout) (owner : Option String) (b : Block) : List (Variable × Int64 × Int64) :=
  b.declarations.flatMap fun d => d.names.filterMap fun id =>
    match d.type with
    | .array low high _ => do return (← L.scopes.declared? owner id, ← low.constant?, ← high.constant?)
    | _ => none

def Program.arrays (p : Program) (L : Layout) : List (Variable × Int64 × Int64) :=
  L.arraysOf none p.block ++ L.routines.flatMap fun r => L.arraysOf (some r.activation.name) r.block

theorem Program.DeclaresArray.mem_arrays {owner : Option String} {id : String} {v : Variable} {low high : Int64}
    (h : p.DeclaresArray L owner id v low high) : (v, low, high) ∈ p.arrays L := by
  obtain ⟨block, d, lowExpr, highExpr, element, hblock, hd, hid, htype, hlow, hhigh⟩ := h.declared
  have hmem : (v, low, high) ∈ L.arraysOf owner block := by
    refine List.mem_flatMap.mpr ⟨d, hd, List.mem_filterMap.mpr ⟨id, hid, ?_⟩⟩
    simp only [htype, h.place, hlow, hhigh]
    rfl
  rcases hblock with ⟨rfl, rfl⟩ | ⟨r, hr, rfl, rfl⟩
  · exact List.mem_append_left _ hmem
  · exact List.mem_append_right _ (List.mem_flatMap.mpr ⟨r, hr, hmem⟩)

/-- An access to an element at a position has an index within the bounds of all arrays. -/
def accessInBounds (arrays : List (Variable × Int64 × Int64)) (code : Code) (q : Nat) (t : State) : Bool :=
  match code[q]?, t.stack with
  | some (.ok o), .integer number :: _ => !o.isIndirect ||
    arrays.all fun a => decide (a.2.1 ≤ a.1.indexOf number ∧ a.1.indexOf number ≤ a.2.2)
  | _, _ => true

/-- The same for all accesses of the first steps of a run. -/
def accessesInBounds (arrays : List (Variable × Int64 × Int64)) (code : Code) : (steps : Nat) → Nat → State → Bool
  | 0, _, _ => true
  | steps + 1, q, t => accessInBounds arrays code q t &&
    match step code q t with
    | (.suspended q', t') => accessesInBounds arrays code steps q' t'
    | _ => true

theorem accessInBounds_of_run {arrays : List (Variable × Int64 × Int64)} {img : Code} {steps q₀ j q : Nat}
    {t₀ t : State} (h : accessesInBounds arrays img steps q₀ t₀ = true) (hj : j < steps)
    (hrun : runFrom img j q₀ t₀ = (.suspended q, t)) : accessInBounds arrays img q t = true := by
  induction j generalizing steps q₀ t₀ with
  | zero =>
    obtain ⟨steps, rfl⟩ := Nat.exists_eq_succ_of_ne_zero (Nat.ne_of_gt hj)
    rw [accessesInBounds, Bool.and_eq_true] at h
    rw [runFrom] at hrun
    split at hrun
    · cases hrun
      exact h.1
    · cases hrun
  | succ j ih =>
    obtain ⟨steps, rfl⟩ := Nat.exists_eq_succ_of_ne_zero (Nat.ne_of_gt (Nat.zero_lt_of_lt hj))
    rw [accessesInBounds, Bool.and_eq_true] at h
    rw [runFrom] at hrun
    cases hstep : step img q₀ t₀ with
    | mk status u =>
      simp only [hstep] at h hrun
      cases status with
      | suspended next => exact ih h.2 (Nat.lt_of_succ_lt_succ hj) hrun
      | finished => cases hrun
      | failed f => cases hrun

theorem runsInBounds_of_check {img : Code} {input : List UInt8} {steps : Nat}
    (h : accessesInBounds (p.arrays L) img steps 0 (.initial input) = true) : p.RunsInBounds L img input steps := by
  intro j hj q t hrun _ _ _ v low high o number _ _ _ hdeclares hop ho hstack
  have haccess := accessInBounds_of_run h hj hrun
  unfold accessInBounds at haccess
  simp only [hop, hstack, ho, Bool.not_true, Bool.false_or, List.all_eq_true, decide_eq_true_eq] at haccess
  exact haccess (v, low, high) hdeclares.mem_arrays

/-- A program with a function, an array, a text and one of its characters. -/
def typedSource : String :=
  "program p; function f(n: real): real; begin f := n end; var a: array[1..2] of char; s: string; " ++
    "begin s := 'ab'; a[2] := s[1]; write(f(2), a[2]) end."

def typedSourceRuns (p : Program) (code : List Line) (L : Layout) (img : Image) : Bool :=
  p.setFree && p.textArrayFree && p.textResultFree && p.block.functions.all (·.name = "f") &&
    decide ((slotsOf code).dedup.length ≤ maxGlobals) &&
    accessesInBounds (p.arrays L) img.code 60 0 (.initial [])

theorem typedSource_runs : ∃ p code L img, compile typedSource = .ok code ∧
    (report typedSource).accepted = .ok p ∧ p.layout? = some L ∧ p.setFree = true ∧ p.textArrayFree = true ∧
    p.textResultFree = true ∧ (∀ f ∈ p.block.functions, ¬ IsStatementLabel f.name) ∧
    (slotsOf code).dedup.length ≤ maxGlobals ∧ load (codeText code) = .ok img ∧
    p.RunsInBounds L img.code [] 60 := by
  have hrun : checkSource typedSource typedSourceRuns = true := checkSource_of_checkImage (by decide +kernel)
  obtain ⟨p, code, L, img, hcompile, htree, hlayout, hload, hrun⟩ := checkSource_eq_true.1 hrun
  simp only [typedSourceRuns, Bool.and_eq_true, decide_eq_true_eq, List.all_eq_true] at hrun
  obtain ⟨⟨⟨⟨⟨hset, harrays⟩, hresults⟩, hnames⟩, hslots⟩, hbounds⟩ := hrun
  refine ⟨p, code, L, img, hcompile, htree, hlayout, hset, harrays, hresults, fun f hf => ?_, hslots, hload,
    runsInBounds_of_check hbounds⟩
  rw [hnames f hf]
  exact not_isStatementLabel fun kind => by cases kind <;> decide

theorem type_soundness_typedSource : ∃ p code L img, compile typedSource = .ok code ∧
    (report typedSource).accepted = .ok p ∧ p.layout? = some L ∧ p.setFree = true ∧ p.textArrayFree = true ∧
    p.textResultFree = true ∧ (∀ f ∈ p.block.functions, ¬ IsStatementLabel f.name) ∧
    (slotsOf code).dedup.length ≤ maxGlobals ∧ load (codeText code) = .ok img ∧ p.RunsInBounds L img.code [] 60 ∧
    (∀ j < 60, ∀ q t, runFrom img.code j 0 (.initial []) = (.suspended q, t) →
      ∀ o slot type, img.code[q]? = some (.ok o) → o.reads t.stack = some slot → p.HasSlot L slot type →
        type.Holds (t.memory.slots slot)) ∧
    (∀ j k a b s u, runFrom img.code j 0 (.initial []) = (.suspended a, s) → j + k ≤ 60 →
      Evaluates img.code a s k b u → ∀ S, (S = L.context.scopes ∨ ∃ r ∈ L.routines, S = (L.contextOf r).scopes) →
      ∀ e lines type, e.setFree = true → ExprCode S e lines → S.infer e = .ok type →
        Placed img.code img.target? a lines b → ∃ v, u.stack = v :: s.stack ∧ type.Holds v) ∧
    ∀ f t, run img.code (some 60) (.initial []) = (some f, t) → f.Expected := by
  obtain ⟨p, code, L, img, hcompile, htree, hlayout, hset, harrays, hresults, hnames, hslots, hload, hbounds⟩ :=
    typedSource_runs
  obtain ⟨_, hload', hsound⟩ := type_soundness hcompile htree hlayout hset harrays hresults hnames hslots
  cases hload.symm.trans hload'
  exact ⟨p, code, L, img, hcompile, htree, hlayout, hset, harrays, hresults, hnames, hslots, hload, hbounds,
    hsound [] (some 60) hbounds⟩

end

end PascalStack
