import PascalStack.Proofs.Simulation.Elements
import PascalStack.Proofs.Soundness.Values

/-!
# Types of regions

* `Program.textArrayFree`, `Program.textResultFree`   programs without arrays of texts, and without functions
                                                      whose result is a text;
* `Program.mem_routines_heading`   every function comes with its heading;
* `Region.valueType`               the type of the values in a region;
* `Program.Regions.holds_zero`, `Program.Regions.consecutive_of_slots`, ...   what regions have in common.
-/

namespace PascalStack

/-! ## texts in declarations -/

def TypeDenoter.isText : TypeDenoter → Bool
  | .string => true
  | _ => false

def TypeDenoter.isTextArray : TypeDenoter → Bool
  | .array _ _ element => element.isText
  | _ => false

def Block.textArrayFree (b : Block) : Bool := b.declarations.all fun v => !v.type.isTextArray

def Program.textArrayFree (p : Program) : Bool :=
  p.block.textArrayFree && p.block.functions.all fun f => f.block?.all Block.textArrayFree

def FunctionDecl.heading? : FunctionDecl → Option Heading
  | .definition heading _ => some heading
  | .directive heading _ => some heading
  | .body _ _ => none

def Program.textResultFree (p : Program) : Bool :=
  p.block.functions.all fun f => f.heading?.all fun heading => !heading.result.isText

/-! ## headings of functions -/

open Compile

section
variable {c d : Compiler} {code : List Line} {r : Routine}

theorem compileBody_pending {label : String} {heading : Heading} {block : Block}
    (h : compileBody label heading block c = .ok code d) : d.pending = c.pending := by
  obtain ⟨_, _, _, hbody⟩ := compileBody_translates h
  exact hbody.pending

/-- A heading that waits for its body was there before, or has just been declared. -/
theorem FunctionDecl.compile_pending {f : FunctionDecl} (h : f.compile c = .ok code d) {id : String}
    {heading : Heading} (hp : d.pending.find? id = some heading) :
    c.pending.find? id = some heading ∨ f.heading? = some heading := by
  have herase {name : String} (hp : (c.pending.erase name).find? id = some heading) :
      c.pending.find? id = some heading := by
    rw [Table.find?_erase] at hp
    split at hp
    · cases hp
    · exact hp
  cases f with
  | definition own block =>
    rw [FunctionDecl.compile] at h
    simp only [bind_eq_ok, modify_eq_ok] at h
    obtain ⟨label, c₁, hannounce, _, _, rfl, hbody⟩ := h
    rw [compileBody_pending hbody] at hp
    have hsame : c₁.pending = c.pending := by
      obtain ⟨_, _, ⟨_, _, _, _, _, _, rfl⟩ | ⟨_, _, _, rfl⟩⟩ := announce_eq_ok hannounce <;> rfl
    have hp : (c₁.pending.erase own.name).find? id = some heading := hp
    rw [hsame] at hp
    exact .inl (herase hp)
  | directive own directive =>
    rw [FunctionDecl.compile] at h
    simp only [bind_eq_ok, check_eq_ok, scopes_eq_ok, setScopes_eq_ok, ite_eq_ok, modify_eq_ok, pure_eq_ok] at h
    obtain ⟨_, _, ⟨_, rfl⟩, _, _, ⟨rfl, rfl⟩, _, _, ⟨_, rfl⟩, _, _, rfl, h⟩ := h
    rcases h with ⟨_, _, _, rfl, rfl, rfl⟩ | ⟨_, rfl, rfl⟩
    · have hp : (c.pending.insert own.name own).find? id = some heading := hp
      rw [Table.find?_insert] at hp
      split at hp
      · exact .inr hp
      · exact .inl hp
    · exact .inl hp
  | body name block =>
    rw [FunctionDecl.compile] at h
    simp only [bind_eq_ok, scopes_eq_ok] at h
    obtain ⟨_, _, ⟨rfl, rfl⟩, h⟩ := h
    cases hg : c.scopes.function? name with
    | none => simp only [hg, throw_eq_ok] at h
    | some g =>
      simp only [hg, bind_eq_ok, ite_eq_ok, throw_eq_ok, false_and, exists_false, and_false, false_or,
        scopes_eq_ok, setScopes_eq_ok, get_eq_ok] at h
      obtain ⟨_, _, _, _, ⟨rfl, rfl⟩, _, _, rfl, _, _, ⟨rfl, rfl⟩, h⟩ := h
      cases hpending : c.pending.find? name with
      | none => simp only [hpending, throw_eq_ok] at h
      | some own =>
        simp only [hpending, bind_eq_ok, modify_eq_ok] at h
        obtain ⟨_, _, rfl, hbody⟩ := h
        rw [compileBody_pending hbody] at hp
        exact .inl (herase hp)

/-- The heading of a function that is compiled. -/
theorem routinesFrom_heading {fs : List FunctionDecl} (h : r ∈ routinesFrom c fs) :
    ∃ heading label slot, heading.routine? label slot r.block = some r ∧
      ((∃ f ∈ fs, f.heading? = some heading) ∨ ∃ id, c.pending.find? id = some heading) := by
  induction fs generalizing c with
  | nil => cases h
  | cons f fs ih =>
    rw [routinesFrom] at h
    split at h
    · rename_i code d hcompile
      rcases List.mem_append.mp h with h | h
      · have hr := Option.mem_toList.mp h
        have hblock := block?_of_routine? hr
        cases f with
        | definition heading block =>
          cases hblock
          exact ⟨heading, _, _, hr, .inl ⟨_, List.mem_cons_self .., rfl⟩⟩
        | directive heading directive => cases hr
        | body name block =>
          cases hblock
          obtain ⟨heading, hpending, hr⟩ := Option.bind_eq_some_iff.mp hr
          exact ⟨heading, _, _, hr, .inr ⟨name, hpending⟩⟩
      · obtain ⟨heading, label, slot, hr, ⟨g, hg, hheading⟩ | ⟨id, hpending⟩⟩ := ih h
        · exact ⟨heading, label, slot, hr, .inl ⟨g, List.mem_cons_of_mem _ hg, hheading⟩⟩
        · refine ⟨heading, label, slot, hr, ?_⟩
          rcases FunctionDecl.compile_pending hcompile hpending with hpending | hheading
          · exact .inr ⟨id, hpending⟩
          · exact .inl ⟨f, List.mem_cons_self .., hheading⟩
    · cases h

end

section
variable {p : Program} {L : Layout} {code : List Line} {log : List Region} {r : Routine}

/-- Every function of a program comes with its heading. -/
theorem Program.mem_routines_heading (h : p.layout? = some L) (hr : r ∈ L.routines) :
    ∃ heading label slot, heading.routine? label slot r.block = some r ∧
      ∃ f ∈ p.block.functions, f.heading? = some heading := by
  unfold Program.layout? at h
  split at h
  · rename_i c _ _ hdecls _
    cases h
    have he : Compiler.initial.scopes.Entered := nofun
    obtain ⟨_, hd, -⟩ := declarations_translate he hdecls
    obtain ⟨heading, label, slot, hroutine, hf | ⟨id, hpending⟩⟩ := routinesFrom_heading hr
    · exact ⟨heading, label, slot, hroutine, hf⟩
    · rw [hd.others] at hpending
      cases hpending
  · cases h

theorem Program.result_holds_zero (h : p.layout? = some L) (htexts : p.textResultFree = true)
    (hr : r ∈ L.routines) : r.activation.result.Holds .zero := by
  obtain ⟨heading, _, _, hroutine, f, hf, hheading⟩ := Program.mem_routines_heading h hr
  have hresult := (routine?_eq_some hroutine).2.1
  refine DataType.holds_zero ?_ (Heading.resultType_ne_array hresult)
  intro hstring
  have hnot := List.all_eq_true.mp htexts f hf
  rw [hheading, Option.all_some, Bool.not_eq_true'] at hnot
  rw [hstring, Heading.resultType] at hresult
  cases htype : heading.result with
  | string =>
    rw [htype] at hnot
    cases hnot
  | _ =>
    rw [htype] at hresult
    cases hresult

theorem Program.parameters_ne_array (h : p.layout? = some L) (hr : r ∈ L.routines) :
    ∀ t ∈ r.parameters.map Prod.snd, t ≠ .array := by
  obtain ⟨heading, _, _, hroutine, _⟩ := Program.mem_routines_heading h hr
  exact List.forall_mem_map.mpr (parameterList_ne_array (routine?_eq_some hroutine).1)

/-! ## regions -/

def Region.valueType (g : Region) : DataType :=
  match g.shape with
  | .scalar t => t
  | .array _ t => t

namespace Program.Regions

/-- The region of a variable of one value. -/
theorem scalar (h : p.Regions L code log) {g : Region} (hg : g ∈ log) {t : DataType}
    (hshape : g.shape = .scalar t) : g.size = 1 ∧ g.valueType = t := by
  refine ⟨?_, by rw [Region.valueType, hshape]⟩
  have hdeclared {type : TypeDenoter} {names : List String} (hdecl : g.DeclaredBy type names) : g.size = 1 := by
    rcases hdecl.shape with ⟨_, _, hsize, _⟩ | ⟨_, _, _, _, _, _, _, _, _, _, _, harray⟩
    · exact hsize
    · cases hshape.symm.trans harray
  rcases h.declared g hg with hsingle | ⟨_, _, _, hdecl⟩ | ⟨_, _, _, _, _, hdecl⟩
  · exact hsingle.1
  · exact hdeclared hdecl
  · exact hdeclared hdecl

/-- Elements of arrays may be zero. -/
theorem holds_zero (h : p.Regions L code log) (hlayout : p.layout? = some L) (htexts : p.textArrayFree = true)
    {g : Region} (hg : g ∈ log) {low : Int64} {t : DataType} (hshape : g.shape = .array low t) :
    t.Holds .zero := by
  obtain ⟨hmain, hfunctions⟩ := (Bool.and_eq_true _ _).mp htexts
  have hdeclared {b : Block} {v : VarDecl} (hb : b.textArrayFree = true) (hv : v ∈ b.declarations)
      (hdecl : g.DeclaredBy v.type v.names) : t.Holds .zero := by
    rcases hdecl.shape with ⟨_, _, _, hscalar⟩ | ⟨_, _, element, _, _, u, htype, hu, _, _, _, harray⟩
    · cases hshape.symm.trans hscalar
    · cases hshape.symm.trans harray
      refine DataType.holds_zero ?_ (DataType.ofScalar?_ne_array hu)
      rintro rfl
      have hnot := List.all_eq_true.mp hb v hv
      rw [htype, Bool.not_eq_true'] at hnot
      cases element <;> cases hu
      cases hnot
  rcases h.declared g hg with ⟨_, _, _, hscalar⟩ | ⟨_, v, hv, hdecl⟩ | ⟨r, hr, _, v, hv, hdecl⟩
  · cases hshape.symm.trans hscalar
  · exact hdeclared hmain hv hdecl
  · obtain ⟨f, hf, hblock⟩ := Program.mem_routines hlayout hr
    have hfree := List.all_eq_true.mp hfunctions f hf
    rw [hblock] at hfree
    exact hdeclared hfree hv hdecl

section
variable (h : p.Regions L code log) (hslots : (slotsOf code).dedup.length ≤ maxGlobals)
include h hslots

/-- Regions lie one after the other if there are no more slots than the machine has. -/
theorem consecutive_of_slots : Consecutive 0 log ∧ ∀ g ∈ log, g.slot + g.size ≤ maxGlobals := by
  have hnames : Names (slotsOf code) (slotsOf code).dedup.length := by
    intro k hk
    exact names_length _ k fun n hn => List.mem_dedup.mpr (hk n hn)
  have hcons := h.allocates.consecutive h.named hnames (Nat.lt_of_le_of_lt hslots (by decide))
    fun _ hn => absurd hn (Nat.not_lt_zero _)
  refine ⟨hcons, fun g hg => ?_⟩
  have hnamed := hcons.named h.named (fun m hm => absurd hm (Nat.not_lt_zero m)) g hg
  exact Nat.le_trans (hnames _ hnamed) hslots

end

end Program.Regions

end

end PascalStack
