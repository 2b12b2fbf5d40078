import PascalStack.Proofs.Compiler.NamedSlots
import PascalStack.Proofs.Machine.Failures
import PascalStack.Proofs.Machine.Limits
import PascalStack.Proofs.Simulation.FirstValues
import PascalStack.Proofs.Soundness.Programs

/-!
# Programs and the slots of the machine

A single array has a greatest size, but the slots that a program reserves are not counted when it is compiled.
Only the machine has a greatest number of slots.

* `reserved`                          the number of slots of some regions;
* `Program.Regions.mem_slotsOf_iff`   the code of a program names the slots of its regions and no others;
* `Program.Regions.fits_iff`          all of them exist if there are enough for all the regions;
* `exec_fixed_ne`, `exec_fixed_fails`   instructions with a slot in them;
* `mem_slotsOf_of_image`, `exists_image_of_mem`   the lines that they come from;
* `variables_overflow`                variables of the main block for which there are not enough slots;
* `fixed_slots_exist_iff`             no instruction names a slot that does not exist just if the program fits.
-/

namespace PascalStack

open Compile Exec

/-! ## the number of reserved slots -/

def reserved (log : List Region) : Nat := (log.map Region.size).sum

theorem reserved_cons (g : Region) (log : List Region) : reserved (g :: log) = g.size + reserved log :=
  List.sum_cons

namespace Scopes.Allocates
variable {s t : Scopes} {log : List Region}

/-- Slots are counted in a machine word. -/
theorem nextSlot (h : Allocates s log t) (hs : s.nextSlot < wordSize) :
    t.nextSlot = (s.nextSlot + reserved log) % wordSize := by
  induction h with
  | refl => exact (Nat.mod_eq_of_lt hs).symm
  | same hsame _ ih =>
    rw [← hsame.nextSlot] at hs ⊢
    exact ih hs
  | @enter s _ _ label result _ ih =>
    rw [ih (allocate_nextSlot_lt _ _), reserved_cons, ← Nat.add_assoc]
    exact Nat.mod_add_mod ..
  | @declare s t _ _ name size shape hd _ ih =>
    have hnext : t.nextSlot = (s.nextSlot + size) % wordSize := declare_nextSlot hd
    rw [ih (hnext ▸ Nat.mod_lt _ (by decide)), hnext, reserved_cons, ← Nat.add_assoc]
    exact Nat.mod_add_mod ..

/-- There is no carry as long as the reserved slots are words. -/
theorem consecutive_of_reserved (h : Allocates s log t) (hfit : s.nextSlot + reserved log < wordSize) :
    Consecutive s.nextSlot log := by
  induction h with
  | refl => trivial
  | same hsame _ ih =>
    rw [← hsame.nextSlot] at hfit ⊢
    exact ih hfit
  | @enter s _ _ label result _ ih =>
    rw [reserved_cons, ← Nat.add_assoc] at hfit
    have hnext : ((s.enter label).allocate 1).2.nextSlot = s.nextSlot + 1 :=
      Nat.mod_eq_of_lt (Nat.lt_of_le_of_lt (Nat.le_add_right ..) hfit)
    rw [hnext] at ih
    exact ⟨rfl, ih hfit⟩
  | @declare s t _ _ name size shape hd _ ih =>
    rw [reserved_cons, ← Nat.add_assoc] at hfit
    have hnext : t.nextSlot = s.nextSlot + size :=
      (declare_nextSlot hd).trans (Nat.mod_eq_of_lt (Nat.lt_of_le_of_lt (Nat.le_add_right ..) hfit))
    rw [hnext] at ih
    exact ⟨rfl, ih hfit⟩

end Scopes.Allocates

/-- Regions one after the other have just the slots that are counted. -/
theorem Consecutive.exists_has_iff {first n : Nat} {log : List Region} (h : Consecutive first log) :
    (∃ g ∈ log, g.Has n) ↔ first ≤ n ∧ n < first + reserved log := by
  induction log generalizing first with
  | nil =>
    have hnone : reserved [] = 0 := rfl
    simp only [List.not_mem_nil, false_and, exists_false, hnone, false_iff]
    omega
  | cons g log ih =>
    obtain ⟨rfl, hrest⟩ := h
    rw [reserved_cons, List.exists_mem_cons_iff, ih hrest, Region.Has]
    omega

/-! ## the slots of a program -/

section
variable {p : Program} {L : Layout} {code : List Line} {log : List Region}

/-- The slots of a variable that is declared at hand belong to a region. -/
theorem Layout.Shares.placedIn {S : Scopes} (hS : L.Shares S) {v : VarDecl}
    (hplaces : L.scopes.Places log S.current v) : S.PlacedIn (fun n => ∃ g ∈ log, g.Has n) v v.names := by
  intro name hname
  obtain ⟨g, hg, hdecl, hplace⟩ := hplaces name hname
  rw [← hS.declared?] at hplace
  exact ⟨g, hdecl, Scopes.resolve?_of_declared? hplace, fun n hn => ⟨g, hg, hn⟩⟩

namespace Program.Regions
variable (h : p.Regions L code log)
include h

theorem size_pos {g : Region} (hg : g ∈ log) : 0 < g.size := by
  rcases h.declared g hg with hsingle | ⟨_, _, _, hdecl⟩ | ⟨_, _, _, _, _, hdecl⟩
  · exact hsingle.1 ▸ Nat.one_pos
  · exact hdecl.size_pos
  · exact hdecl.size_pos

/-- So does the slot of any name in sight. -/
theorem has_resolved {S : Scopes} (hS : L.Shares S) {id : String} {v : Variable} (hv : S.resolve? id = some v) :
    ∃ g ∈ log, g.Has v.slot := by
  obtain ⟨g, hg, _, _, hof⟩ := h.resolved hS.locals hS.globals hv
  exact ⟨g, hg, Nat.le_of_eq hof.slot, hof.slot ▸ Nat.lt_add_of_pos_right (h.size_pos hg)⟩

theorem mem_slotsOf_of_has {g : Region} {n : Nat} (hg : g ∈ log) (hn : g.Has n) : n ∈ slotsOf code := by
  obtain ⟨hle, hlt⟩ := hn
  have hnamed := h.named g hg (n - g.slot) (by omega)
  rwa [Nat.add_sub_cancel' hle] at hnamed

/-- **The code of a program names the slots of its regions and no others.** -/
theorem mem_slotsOf_iff (hprogram : ProgramCode L p code) (hcurrent : L.scopes.current = none) (n : Nat) :
    n ∈ slotsOf code ↔ ∃ g ∈ log, g.Has n := by
  refine ⟨fun hn => ?_, ?_⟩
  · have hmain : L.Shares L.scopes := ⟨rfl, rfl, rfl⟩
    refine hprogram.slotsIn ⟨fun id v hv => h.has_resolved hmain hv, fun a ha => by cases ha⟩
      (fun v hv => hmain.placedIn (hcurrent ▸ h.places v hv)) (fun r hr => ?_) n hn
    have hS : L.Shares (L.contextOf r).scopes := ⟨rfl, rfl, rfl⟩
    refine ⟨⟨fun id v hv => h.has_resolved hS hv, fun a ha => ?_⟩,
      fun v hv => hS.placedIn (h.routinePlaces r hr v hv)⟩
    cases ha
    exact ⟨_, h.results r hr, Nat.le_refl _, Nat.lt_succ_self _⟩
  · rintro ⟨g, hg, hn⟩
    exact h.mem_slotsOf_of_has hg hn

theorem nextSlot : L.scopes.nextSlot = reserved log % wordSize := by
  have hcount : L.scopes.nextSlot = (0 + reserved log) % wordSize := h.allocates.nextSlot (by decide)
  rwa [Nat.zero_add] at hcount

/-- Regions that do not fit reach the first slot that does not exist. -/
theorem reserved_le (hnot : maxGlobals ∉ slotsOf code) : reserved log ≤ maxGlobals := by
  have hnames : Names (slotsOf code) maxGlobals := by
    intro k hk
    exact Nat.le_of_not_lt fun hlt => hnot (hk maxGlobals hlt)
  have hcons : Consecutive 0 log :=
    h.allocates.consecutive h.named hnames (by decide) fun _ hn => absurd hn (Nat.not_lt_zero _)
  refine Nat.le_of_not_lt fun hlt => hnot ?_
  obtain ⟨g, hg, hmax⟩ := hcons.exists_has_iff.2 ⟨Nat.zero_le maxGlobals, (Nat.zero_add _).symm ▸ hlt⟩
  exact h.mem_slotsOf_of_has hg hmax

theorem mem_slotsOf_iff_lt (hprogram : ProgramCode L p code) (hcurrent : L.scopes.current = none)
    (hfit : reserved log ≤ maxGlobals) (n : Nat) : n ∈ slotsOf code ↔ n < reserved log := by
  have hwords : 0 + reserved log < wordSize := by
    have hmax : maxGlobals < wordSize := by decide
    omega
  have hcons : Consecutive 0 log := h.allocates.consecutive_of_reserved hwords
  rw [h.mem_slotsOf_iff hprogram hcurrent, hcons.exists_has_iff, Nat.zero_add]
  exact and_iff_right (Nat.zero_le n)

/-- **All slots that the code names exist just if there are enough for all regions.** -/
theorem fits_iff (hprogram : ProgramCode L p code) (hcurrent : L.scopes.current = none) :
    reserved log ≤ maxGlobals ↔ ∀ n ∈ slotsOf code, n < maxGlobals := by
  refine ⟨fun hfit n hn => ?_, fun hall => h.reserved_le fun hmem => Nat.lt_irrefl _ (hall _ hmem)⟩
  exact Nat.lt_of_lt_of_le ((h.mem_slotsOf_iff_lt hprogram hcurrent hfit n).1 hn) hfit

end Program.Regions

end

/-! ## instructions with a slot -/

section
variable {k n : Nat} {o : Op Nat} {s t : State} {v : Value} {rest : List Value}

theorem exec_pushg_some (k n : Nat) (s : State) : (Op.pushg (some n)).exec k s =
    (loadGlobal n >>= fun v => push v >>= fun _ => pure (.goto (k + 1))) s := rfl

theorem exec_storeg_some (hs : s.stack = v :: rest) : (Op.storeg (some n)).exec k s =
    (storeGlobal n v >>= fun _ => pure (.goto (k + 1))) { s with stack := rest } :=
  EStateM.bind_of_ok (pop_of_cons hs)

/-- With a slot that exists an instruction does not complain of its address. -/
theorem exec_fixed_ne (ho : o.slot? = some n) (hn : n < maxGlobals) (address : Int64) :
    o.exec k s ≠ .error (.invalidAddress address) t := by
  intro hexec
  cases o with
  | pushg slot =>
    cases ho
    have hload := Exec.loadGlobal_eq n s
    rw [if_pos hn] at hload
    rw [exec_pushg_some, EStateM.bind_of_ok hload] at hexec
    cases hexec
  | storeg slot =>
    cases ho
    cases hs : s.stack with
    | nil =>
      obtain ⟨stack, globals, calls, input, output⟩ := s
      cases hs
      cases hexec
    | cons v rest =>
      obtain ⟨u, hstore, -⟩ := (Exec.storeGlobal_eq n v { s with stack := rest }).1 hn
      rw [exec_storeg_some hs, EStateM.bind_of_ok hstore] at hexec
      cases hexec
  | _ => cases ho

/-- With a slot that does not exist it fails, once it has its operand. -/
theorem exec_fixed_fails (ho : o.slot? = some n) (hn : ¬ n < maxGlobals) (hs : s.stack = v :: rest) :
    ∃ t, o.exec k s = .error (.invalidAddress (slotNumber n)) t ∧ t.output = s.output := by
  cases o with
  | pushg slot =>
    cases ho
    have hload := Exec.loadGlobal_eq n s
    rw [if_neg hn] at hload
    rw [exec_pushg_some]
    exact ⟨s, EStateM.bind_of_error hload, rfl⟩
  | storeg slot =>
    cases ho
    have hstore := (Exec.storeGlobal_eq n v { s with stack := rest }).2 hn
    rw [exec_storeg_some hs]
    exact ⟨_, EStateM.bind_of_error hstore, rfl⟩
  | _ => cases ho

end

/-! ## lines and instructions -/

section
variable {lines : List Line} {k n : Nat}

theorem Op.resolve?_slot {targets : String → Option Nat} {o : Op String} {op : Op Nat}
    (h : o.resolve? targets = some op) : op.slot? = o.slot? := by
  cases o with
  | pusha label | jump label | jz label =>
    obtain ⟨_, _, rfl⟩ := Option.map_eq_some_iff.mp h
    rfl
  | _ =>
    cases h
    rfl

theorem Op.fits_of_slot {o : Op String} (h : o.slot? = some n) (hn : n < wordSize) :
    o.fits = true ∧ o.target? = none := by
  cases o with
  | pushg slot | storeg slot =>
    cases h
    exact ⟨decide_eq_true hn, rfl⟩
  | _ => cases h

/-- An instruction has a slot only if one is written. -/
theorem decode_slot {img : Image} {o : Op String} {number : Nat} {op : Op Nat}
    (h : img.decode ⟨o.opcode, o.operand, number⟩ = .ok op) (hslot : op.slot? = some n) :
    ∃ m, o.slot? = some m := by
  cases o with
  | pushg slot | storeg slot =>
    obtain ⟨slot', hs, rfl⟩ := eq_of_return_eq_ok h
    cases slot with
    | none =>
      cases hs
      cases hslot
    | some m => exact ⟨m, rfl⟩
  | basic b =>
    cases h
    cases hslot
  | _ =>
    obtain ⟨_, _, rfl⟩ := eq_of_return_eq_ok h
    cases hslot

/-- The line of a written slot. -/
theorem mem_slotsOf_of_line {o : Op String} {before after : List Line} (hlines : lines = before ++ .op o :: after)
    (ho : o.slot? = some n) : n ∈ slotsOf lines := by
  refine List.mem_filterMap.mpr ⟨.op o, ?_, (Line.slot?_op o).trans ho⟩
  rw [hlines]
  exact List.mem_append_right _ (List.mem_cons_self ..)

/-- Slots that are words are read as they are written. -/
theorem mem_slotsOf_of_image {op : Op Nat} (hwords : ∀ n ∈ slotsOf lines, n < wordSize)
    (hop : (imageOf lines).code[k]? = some (.ok op)) (hslot : op.slot? = some n) : n ∈ slotsOf lines := by
  have hk : k < (listing 1 lines).length := by
    obtain ⟨hk, _⟩ := Array.getElem?_eq_some_iff.mp hop
    simpa [Image.code, imageOf] using hk
  obtain ⟨before, o, after, hlines, rfl⟩ := exists_line hk
  have hdecode := hop
  rw [imageOf_code hlines, Option.some.injEq] at hdecode
  obtain ⟨m, hm⟩ := decode_slot hdecode hslot
  have hmem := mem_slotsOf_of_line hlines hm
  obtain ⟨hfits, htarget⟩ := Op.fits_of_slot hm (hwords m hmem)
  obtain ⟨op', hresolve, hcode⟩ := imageOf_code_of_fits hlines hfits htarget
  cases hop.symm.trans hcode
  cases hslot.symm.trans ((Op.resolve?_slot hresolve).trans hm)
  exact hmem

/-- A written slot stands in an instruction. -/
theorem exists_image_of_mem (hn : n ∈ slotsOf lines) (hword : n < wordSize) :
    ∃ (k : Nat) (op : Op Nat), (imageOf lines).code[k]? = some (.ok op) ∧ op.slot? = some n := by
  obtain ⟨line, hline, hslot⟩ := List.mem_filterMap.mp hn
  cases line with
  | label name => cases hslot
  | op o =>
    rw [Line.slot?_op] at hslot
    obtain ⟨before, after, hlines⟩ := List.append_of_mem hline
    obtain ⟨hfits, htarget⟩ := Op.fits_of_slot hslot hword
    obtain ⟨op, hresolve, hcode⟩ := imageOf_code_of_fits hlines hfits htarget
    exact ⟨_, op, hcode, (Op.resolve?_slot hresolve).trans hslot⟩

theorem listing_append (number : Nat) (a b : List Line) :
    listing number (a ++ b) = listing number a ++ listing (number + a.length) b := by
  induction a generalizing number with
  | nil => rfl
  | cons line a ih =>
    have hnumber : number + (line :: a).length = number + 1 + a.length := by
      rw [List.length_cons]
      omega
    rw [hnumber]
    cases line with
    | label name => exact ih (number + 1)
    | op o => exact congrArg (_ :: ·) (ih (number + 1))

/-- The first lines of code are placed at its start, if they need no label. -/
theorem placed_first {a b : List Line} (h : Straight (fun _ => False) a) :
    ∃ q, Placed (imageOf (a ++ b)).code (imageOf (a ++ b)).target? 0 a q := by
  have hlisting : ∀ i j, (listing 1 a)[i]? = some j → (imageOf (a ++ b)).instructions[0 + i]? = some j := by
    intro i j hj
    rw [imageOf, Nat.zero_add, List.getElem?_toArray, listing_append,
      List.getElem?_append_left (List.getElem?_eq_some_iff.mp hj).1]
    exact hj
  refine placed_listing hlisting (fun name q hq => ?_) fun t ht => (h.targets t ht).elim
  have hname := List.mem_map_of_mem (f := Prod.fst) hq
  rw [positions_names, h.labels] at hname
  cases hname

end

/-! ## variables for which there are not enough slots -/

section
variable {code : Code} {targets : String → Option Nat} {p q : Nat} {s : State} {v : Value} {rest : List Value}

/-- A run comes to an instruction that names the first slot that does not exist, and has printed nothing. -/
def Overflows (code : Code) (p : Nat) (s : State) : Prop :=
  ∃ q t u, Reaches code p s q t ∧ step code q t = (.failed (.invalidAddress 1048576), u) ∧ u.output = s.output

theorem Overflows.after {t : State} (h : Reaches code p s q t) (ho : t.output = s.output) (hq : Overflows code q t) :
    Overflows code p s := by
  obtain ⟨r, u, w, hreach, hfails, houtput⟩ := hq
  exact ⟨r, u, w, h.trans hreach, hfails, houtput.trans ho⟩

theorem stores_overflow {base size : Nat} (hbase : base ≤ maxGlobals) (hsize : maxGlobals < base + size)
    (hp : Placed code targets p (emit ((List.range' base size).map fun slot => .storeg (some slot))) q)
    (hs : s.stack = List.replicate size v ++ rest) : Overflows code p s := by
  induction size generalizing base p s with
  | zero => omega
  | succ size ih =>
    rw [List.range'_succ] at hp
    obtain ⟨m, hstore, hrest⟩ := hp.uncons
    have hword : base < wordSize := Nat.lt_of_le_of_lt hbase (by decide)
    obtain ⟨hcode, rfl⟩ := hstore.instruction (decide_eq_true hword) rfl
    by_cases hlt : base < maxGlobals
    · obtain ⟨t, hstep, hstack, -, hmemory⟩ :=
        (does_storeg base).step hcode hs (Eval.storeSlot_of_lt hlt)
      refine .after (.cons hstep .refl) ?_ (ih hlt (by omega) hrest hstack)
      exact congrArg Memory.output hmemory
    · obtain rfl : base = maxGlobals := Nat.le_antisymm hbase (Nat.le_of_not_lt hlt)
      obtain ⟨u, hexec, houtput⟩ := exec_fixed_fails (o := .storeg (some maxGlobals)) (k := p) rfl hlt hs
      exact ⟨p, s, u, .refl, step_of_error hcode hexec, houtput⟩

/-- Variables get their first values up to the first slot that does not exist. -/
theorem variables_overflow {a b : Scopes} {log : List Region} (h : Scopes.Declares a log b)
    (hfirst : a.nextSlot ≤ maxGlobals) (hover : maxGlobals < a.nextSlot + reserved log)
    (hlog : ∀ r ∈ log, r.size ≤ maxGlobals ∧ ∀ t, r.shape = .scalar t → r.size = 1)
    (hp : Placed code targets p (log.flatMap Region.firstCode) q) : Overflows code p s := by
  induction h generalizing p s with
  | refl =>
    have hnone : reserved [] = 0 := rfl
    omega
  | @step a b _ log name size shape hd _ ih =>
    obtain ⟨⟨hsize, hscalar⟩, hlog⟩ := List.forall_mem_cons.mp hlog
    rw [reserved_cons, ← Nat.add_assoc] at hover
    rw [List.flatMap_cons] at hp
    obtain ⟨m, hone, hrest⟩ := placed_append.mp hp
    by_cases hfit : a.nextSlot + size ≤ maxGlobals
    · have hnext : b.nextSlot = a.nextSlot + size :=
        (Scopes.declare_nextSlot hd).trans (Nat.mod_eq_of_lt (Nat.lt_of_le_of_lt hfit (by decide)))
      rw [hnext] at ih
      obtain ⟨t, hreach, -, -, hmemory⟩ := Region.firstCode_run (s := s) hscalar hfit hone
      exact .after hreach (congrArg Memory.output hmemory) (ih hfit hover hlog hrest)
    · obtain ⟨_, hpush, hstores⟩ := hone.uncons
      obtain ⟨t, hstep, hstack, -, hmemory⟩ := Region.pushFirst_step (s := s) hscalar hsize hpush
      exact .after (.cons hstep .refl) (congrArg Memory.output hmemory)
        (stores_overflow hfirst (Nat.lt_of_not_le hfit) hstores hstack)

end

section
variable {c d : Compiler} {code : List Line}

theorem variables_code {vs : List VarDecl} (h : compileVariables vs c = .ok code d) :
    ∃ log, c.DeclaresOnly log d ∧ (∀ r ∈ log, ∃ v ∈ vs, r.DeclaredBy v.type v.names) ∧
      code = log.flatMap Region.firstCode := by
  induction vs generalizing c code with
  | nil =>
    rw [compileVariables, pure_eq_ok] at h
    obtain ⟨rfl, rfl⟩ := h
    exact ⟨[], .refl _, List.forall_mem_nil _, rfl⟩
  | cons v vs ih =>
    rw [compileVariables] at h
    simp only [bind_eq_ok, pure_eq_ok] at h
    obtain ⟨a, c₁, ha, r, _, hr, rfl, rfl⟩ := h
    obtain ⟨log₁, h₁, -, hlog₁, rfl⟩ := varDecl_code ha
    obtain ⟨log₂, h₂, hlog₂, rfl⟩ := ih hr
    refine ⟨log₁ ++ log₂, h₁.trans h₂, fun g hg => ?_, List.flatMap_append.symm⟩
    rcases List.mem_append.mp hg with hg | hg
    · exact ⟨v, List.mem_cons_self .., hlog₁ g hg⟩
    · obtain ⟨w, hw, hgw⟩ := hlog₂ g hg
      exact ⟨w, List.mem_cons_of_mem _ hw, hgw⟩

theorem Region.DeclaredBy.size_le {type : TypeDenoter} {names : List String} {g : Region}
    (h : g.DeclaredBy type names) : g.size ≤ maxGlobals ∧ ∀ t, g.shape = .scalar t → g.size = 1 := by
  rcases h.shape with ⟨_, _, hsize, _⟩ | ⟨_, _, _, _, _, _, _, _, _, _, hsize, hshape⟩
  · exact ⟨hsize ▸ by decide, fun _ _ => hsize⟩
  · exact ⟨arraySize?_le hsize, fun t ht => by cases ht.symm.trans hshape⟩

theorem straight_firstCode (T : String → Prop) (log : List Region) : Straight T (log.flatMap Region.firstCode) := by
  induction log with
  | nil => exact ⟨rfl, List.forall_mem_nil _⟩
  | cons r log ih =>
    rw [List.flatMap_cons]
    refine Straight.append (.emit fun o ho => ?_) ih
    rcases List.mem_cons.mp ho with rfl | ho
    · cases r.shape with
      | scalar t => cases t <;> rfl
      | array low t => rfl
    · obtain ⟨_, _, rfl⟩ := List.mem_map.mp ho
      rfl

/-- The number of slots of the variables of the main block. -/
def Program.variableSlots? (p : Program) : Option Nat :=
  match compileVariables p.block.declarations .initial with
  | .ok _ d => some d.scopes.nextSlot
  | .error _ _ => none

theorem Program.variableSlots?_eq_some {p : Program} {k : Nat} (h : p.variableSlots? = some k) :
    ∃ code d, compileVariables p.block.declarations .initial = .ok code d ∧ d.scopes.nextSlot = k := by
  unfold variableSlots? at h
  split at h
  · rename_i code d hcompile
    exact ⟨code, d, hcompile, Option.some.inj h⟩
  · cases h

/-- A program whose own variables do not fit fails before it prints anything. -/
theorem Program.overflows {p : Program} {k : Nat} (hcompile : p.compile .initial = .ok code d)
    (hslots : p.variableSlots? = some k) (hover : maxGlobals < k) (s : State) :
    Overflows (imageOf code).code 0 s := by
  obtain ⟨declarations, c, hdeclarations, rfl⟩ := Program.variableSlots?_eq_some hslots
  have hcode : ∃ rest, code = declarations ++ rest := by
    obtain ⟨name, parameters, ⟨fs, vs, ss⟩⟩ := p
    rw [Program.compile] at hcompile
    simp only [bind_eq_ok, pure_eq_ok] at hcompile
    obtain ⟨first, c₁, hfirst, _, _, _, _, _, _, _, _, _, _, _, _, rfl, _⟩ := hcompile
    cases hdeclarations.symm.trans hfirst
    exact ⟨_, by simp only [List.append_assoc]; rfl⟩
  obtain ⟨rest, rfl⟩ := hcode
  obtain ⟨log, hd, hlog, rfl⟩ := variables_code hdeclarations
  obtain ⟨q, hplaced⟩ := placed_first (b := rest) (straight_firstCode _ log)
  have hcount : c.scopes.nextSlot = (0 + reserved log) % wordSize :=
    hd.declares.allocates.nextSlot (by decide)
  refine variables_overflow hd.declares (Nat.zero_le _) ?_ (fun r hr => ?_) hplaced
  · rw [hcount] at hover
    exact Nat.lt_of_lt_of_le hover (Nat.mod_le ..)
  · obtain ⟨v, _, hdecl⟩ := hlog r hr
    exact hdecl.size_le

end

/-! ## the machine and the program -/

theorem Overflows.returns {code : Code} {s : State} (h : Overflows code 0 s) :
    ∃ n t, Returns code n 0 s (some (.invalidAddress 1048576)) t ∧ t.output = s.output := by
  obtain ⟨q, t, u, hreach, hfails, houtput⟩ := h
  obtain ⟨n, hreturns⟩ := hreach.returns (.fails hfails)
  exact ⟨n, u, hreturns, houtput⟩

section
variable {source : String} {code : List Line} {p : Program} {L : Layout}

/-- Every run fails if there are not enough slots for the variables of the main block. -/
theorem overfull_fails (hcompile : compile source = .ok code) (htree : (report source).accepted = .ok p)
    {k : Nat} (hslots : p.variableSlots? = some k) (hover : maxGlobals < k) (input : List UInt8) :
    ∃ n t, Returns (imageOf code).code n 0 (.initial input) (some (.invalidAddress 1048576)) t ∧
      t.output = "" := by
  obtain ⟨_, htree', hcode⟩ := compile_eq_ok_iff.1 hcompile
  cases htree.symm.trans htree'
  obtain ⟨_, hcompiled⟩ := compileTree_eq_ok hcode
  exact (Program.overflows hcompiled hslots hover _).returns

/-- **Slots that exist.**  The slots that the code of a program names are those of its regions.  They all exist
just if the regions have no more slots together than the machine, and then they are the first ones; and just
then no instruction with a slot in it can complain of its address.  If the variables of the main block have
more slots, every run fails before it prints anything. -/
theorem fixed_slots_exist_iff (hcompile : compile source = .ok code) (htree : (report source).accepted = .ok p)
    (hlayout : p.layout? = some L) :
    ∃ (img : Image) (log : List Region), load (codeText code) = .ok img ∧ p.Regions L code log ∧
      L.scopes.nextSlot = reserved log % wordSize ∧
      (∀ n, n ∈ slotsOf code ↔ ∃ g ∈ log, g.Has n) ∧
      (reserved log ≤ maxGlobals → ∀ n, n ∈ slotsOf code ↔ n < reserved log) ∧
      (reserved log ≤ maxGlobals ↔ ∀ n ∈ slotsOf code, n < maxGlobals) ∧
      (reserved log ≤ maxGlobals ↔ ∀ k o n, img.code[k]? = some (.ok o) → o.slot? = some n →
        ∀ address s t, step img.code k s ≠ (.failed (.invalidAddress address), t)) ∧
      ∀ k, p.variableSlots? = some k → maxGlobals < k → ∀ input, ∃ n t,
        Returns img.code n 0 (.initial input) (some (.invalidAddress 1048576)) t ∧ t.output = "" := by
  obtain ⟨_, _, log, htree', hlayout', hsound, hregions, hprogram⟩ := compile_code hcompile
  cases htree.symm.trans htree'
  cases hlayout.symm.trans hlayout'
  have hfits := hregions.fits_iff hprogram hsound.current
  refine ⟨imageOf code, log, load_compiled hcompile, hregions, hregions.nextSlot,
    hregions.mem_slotsOf_iff hprogram hsound.current, hregions.mem_slotsOf_iff_lt hprogram hsound.current, hfits,
    ⟨fun hfit k o n hop hslot address s t hstep => ?_, fun hsafe => ?_⟩, fun k hslots hover input => ?_⟩
  · have hexist := hfits.1 hfit
    have hwords : ∀ n ∈ slotsOf code, n < wordSize := fun n hn => Nat.lt_trans (hexist n hn) (by decide)
    have hn := hexist n (mem_slotsOf_of_image hwords hop hslot)
    rcases step_eq_failed hstep with ⟨herror, -⟩ | ⟨o', hop', hexec⟩
    · cases hop.symm.trans herror
    · cases hop.symm.trans hop'
      exact exec_fixed_ne hslot hn address hexec
  · refine hregions.reserved_le fun hmem => ?_
    obtain ⟨k, o, hop, hslot⟩ := exists_image_of_mem hmem (by decide)
    obtain ⟨t, hexec, -⟩ :=
      exec_fixed_fails (k := k) (s := ⟨[.zero], #[], [], [], ""⟩) hslot (Nat.lt_irrefl _) rfl
    exact hsafe k o _ hop hslot _ _ _ (step_of_error hop hexec)
  · exact overfull_fails hcompile htree hslots hover input

end

/-- An array, a function with a parameter, and a loop whose control variable is not declared. -/
def mixedSource : String :=
  "program p; function f(n: integer): integer; begin f := n + 1 end; var a: array[1..3] of integer; " ++
    "begin for i := 1 to 3 do a[i] := f(i); writeln(a[3]) end."

theorem mixedSource_slots : ∃ p code L, compile mixedSource = .ok code ∧
    (report mixedSource).accepted = .ok p ∧ p.layout? = some L ∧ L.scopes.nextSlot = 6 ∧
    ∀ n ∈ slotsOf code, n < maxGlobals := by
  have hrun : checkSource mixedSource (fun _ code L _ =>
      decide (L.scopes.nextSlot = 6 ∧ ∀ n ∈ slotsOf code, n < maxGlobals)) = true :=
    checkSource_of_checkImage (by decide +kernel)
  obtain ⟨p, code, L, _, hcompile, htree, hlayout, -, hrun⟩ := checkSource_eq_true.1 hrun
  exact ⟨p, code, L, hcompile, htree, hlayout, of_decide_eq_true hrun⟩

/-- Six slots: three elements, the result and the parameter of the function, and the control variable. -/
theorem fixed_slots_exist_iff_mixedSource : ∃ p code L, ∃ (img : Image) (log : List Region),
    compile mixedSource = .ok code ∧ (report mixedSource).accepted = .ok p ∧ p.layout? = some L ∧
    load (codeText code) = .ok img ∧ p.Regions L code log ∧ reserved log = 6 ∧
    (∀ n, n ∈ slotsOf code ↔ n < 6) ∧ ∀ k o n, img.code[k]? = some (.ok o) → o.slot? = some n →
      ∀ address s t, step img.code k s ≠ (.failed (.invalidAddress address), t) := by
  obtain ⟨p, code, L, hcompile, htree, hlayout, hnext, hexist⟩ := mixedSource_slots
  obtain ⟨img, log, hload, hregions, hcount, -, hfirst, hfits, hsafe, -⟩ :=
    fixed_slots_exist_iff hcompile htree hlayout
  have hfit := hfits.2 hexist
  have hsix : reserved log = 6 := by
    rw [hnext, Nat.mod_eq_of_lt (Nat.lt_of_le_of_lt hfit (by decide))] at hcount
    exact hcount.symm
  refine ⟨p, code, L, img, log, hcompile, htree, hlayout, hload, hregions, hsix, fun n => ?_, hsafe.1 hfit⟩
  rw [← hsix]
  exact hfirst hfit n

/-- Sixteen arrays of the greatest size, which leave no slot for one more variable. -/
def wideSource : String :=
  "program p; var a, b, c, d, e, f, g, h, i, j, k, l, m, n, o, q: array[1..65536] of integer; x: integer; " ++
    "begin writeln(1) end."

/-- It is compiled, with a slot that does not exist, and every run of it fails. -/
theorem wideSource_overflows : ∃ (code : List Line) (img : Image), compile wideSource = .ok code ∧
    load (codeText code) = .ok img ∧ (∃ n ∈ slotsOf code, ¬ n < maxGlobals) ∧ ∀ input, ∃ n t,
      Returns img.code n 0 (.initial input) (some (.invalidAddress 1048576)) t ∧ t.output = "" := by
  have hrun : checkSource wideSource (fun p _ L _ =>
      decide (L.scopes.nextSlot = 1048577 ∧ p.variableSlots? = some 1048577)) = true :=
    checkSource_of_checkImage (by decide +kernel)
  obtain ⟨p, code, L, img, hcompile, htree, hlayout, hload, hrun⟩ := checkSource_eq_true.1 hrun
  obtain ⟨hnext, hslots⟩ := of_decide_eq_true hrun
  obtain ⟨_, _, log, htree', hlayout', -, hregions, -⟩ := compile_code hcompile
  cases htree.symm.trans htree'
  cases hlayout.symm.trans hlayout'
  cases hload.symm.trans (load_compiled hcompile)
  refine ⟨code, imageOf code, hcompile, hload, ⟨maxGlobals, ?_, Nat.lt_irrefl _⟩, fun input => ?_⟩
  · by_contra hnot
    have hle := Nat.le_trans (Nat.mod_le (reserved log) wordSize) (hregions.reserved_le hnot)
    rw [← hregions.nextSlot, hnext] at hle
    exact absurd hle (by decide)
  · exact overfull_fails hcompile htree hslots (by decide) input

end PascalStack
