import PascalStack.Proofs.Compiler.Functions

/-!
# Compiled programs

* `ProgramCode`          the code of a program;
* `Layout.Sound`         the functions of a layout: labels are distinct, and what may be called has a body;
* `program_translates`   the code that comes out of a compilation is the code of the program.
-/

namespace PascalStack

inductive ProgramCode (L : Layout) (p : Program) : List Line → Prop
  | mk {declarations functions statements : List Line} {k k' : Counters} :
      DeclarationsCode L.scopes p.block.declarations declarations →
      RoutinesCode L ⟨0, 0, 0⟩ L.routines functions k →
      StmtsCode L.context k p.block.statements statements k' →
      ProgramCode L p
        (declarations ++ emit [.jump "main"] ++ functions ++ [.label "main"] ++ emitBasic [.start]
          ++ statements ++ emitBasic [.stop])

structure Program.Regions (p : Program) (L : Layout) (code : List Line) (log : List Region) : Prop where
  allocates : Scopes.empty.Allocates log L.scopes
  named : ∀ g ∈ log, g.NamedIn code
  results : ∀ r ∈ L.routines, .ofResult r.activation ∈ log
  texts : ∀ g ∈ log, g.shape = .scalar .string →
    (g.owner = none ∧ ∃ v ∈ p.block.declarations, g.DeclaredBy v.type v.names) ∨
      ∃ r ∈ L.routines, r.HasText g
  places : ∀ v ∈ p.block.declarations, L.scopes.Places log none v
  routinePlaces : ∀ r ∈ L.routines, ∀ v ∈ r.block.declarations, L.scopes.Places log (some r.activation.name) v
  declared : ∀ g ∈ log, g.Single ∨
    (g.owner = none ∧ ∃ v ∈ p.block.declarations, g.DeclaredBy v.type v.names) ∨
    ∃ r ∈ L.routines, g.owner = some r.activation.name ∧
      ∃ v ∈ r.block.declarations, g.DeclaredBy v.type v.names

structure Program.HasRegion (p : Program) (L : Layout) (code : List Line) (g : Region) : Prop where
  named : g.NamedIn code
  text : g.shape = .scalar .string →
    (g.owner = none ∧ ∃ v ∈ p.block.declarations, g.DeclaredBy v.type v.names) ∨
      ∃ r ∈ L.routines, r.HasText g
  declared : g.Single ∨
    (g.owner = none ∧ ∃ v ∈ p.block.declarations, g.DeclaredBy v.type v.names) ∨
    ∃ r ∈ L.routines, g.owner = some r.activation.name ∧
      ∃ v ∈ r.block.declarations, g.DeclaredBy v.type v.names

/-- What holds of the functions of a program; `P` holds of all names of functions. -/
structure Layout.Sound (P : String → Prop) (L : Layout) : Prop where
  current : L.scopes.current = none
  labels : ∀ r ∈ L.routines, P r.activation.name ∧ r.activation.name ≠ "main"
  distinct : L.routines.Pairwise fun r r' => foldName r.activation.name ≠ foldName r'.activation.name
  callable : ∀ name f, L.scopes.Callable name f → ∃ r ∈ L.routines, r.Implements f

open Compile

theorem Compiler.initial_ready (P : String → Prop) : Compiler.initial.Ready P :=
  ⟨rfl, rfl, nofun, nofun, nofun⟩

theorem Compiler.DeclaresOnly.ready {P : String → Prop} {c d : Compiler} {log : List Region}
    (h : c.DeclaresOnly log d) (hc : c.Ready P) : d.Ready P := by
  have hact : d.activation = c.activation := by rw [h.others]
  have hpend : d.pending = c.pending := by rw [h.others]
  refine hc.carry (h.declares.current.trans hc.current) (hact.trans hc.activation) hpend
    (fun id f hf => ?_) (fun id g hg => ?_)
  · exact ⟨f, (h.declares.function? id).trans hf, .refl f⟩
  · exact ⟨g, (h.declares.function? id).symm.trans hg, .refl g, rfl⟩

theorem Compiler.Moves.ready {P : String → Prop} {c d : Compiler} (h : c.Moves d)
    (hc : c.Ready P) : d.Ready P :=
  hc.carry (h.uses.current.trans hc.current) (h.activation.trans hc.activation) h.pending
    (h.uses.kept hc.current).functions fun _ _ => h.uses.reflects

/-! ## functions that are called have bodies -/

theorem mem_insertByLabel {f g : Signature} {fs : List Signature} (h : f = g ∨ f ∈ fs) :
    f ∈ Scopes.insertByLabel g fs := by
  induction fs with
  | nil =>
    rcases h with rfl | h
    · exact List.mem_cons_self ..
    · cases h
  | cons k ks ih =>
    rw [Scopes.insertByLabel]
    split
    · rcases h with rfl | h
      · exact List.mem_cons_of_mem _ (ih (.inl rfl))
      · rcases List.mem_cons.mp h with rfl | h
        · exact List.mem_cons_self ..
        · exact List.mem_cons_of_mem _ (ih (.inr h))
    · exact List.mem_cons.mpr h

theorem mem_functionList {s : Scopes} {id : String} {f : Signature} (h : s.function? id = some f) :
    f ∈ s.functionList := by
  have hmem : f ∈ s.functions.values := Table.mem_values h
  unfold Scopes.functionList
  generalize s.functions.values = fs at hmem
  induction fs with
  | nil => cases hmem
  | cons g gs ih =>
    rw [List.foldr_cons]
    refine mem_insertByLabel ?_
    rcases List.mem_cons.mp hmem with rfl | hmem
    · exact .inl rfl
    · exact .inr (ih hmem)

theorem hasBody_of_checkForwards {P : String → Prop} {c : Compiler} {u : Unit} (hc : c.Ready P)
    (h : checkForwards c.scopes = .ok u) {name : String} {f : Signature}
    (hf : c.scopes.Callable name f) : f.hasBody = true := by
  unfold checkForwards at h
  split at h
  · cases h
  · rename_i hnone
    have hnot := List.find?_eq_none.mp hnone f (mem_functionList hf.function)
    cases hdir : f.directive with
    | none => exact hc.defined name f hf.function hdir
    | some dir =>
      cases dir with
      | external => exact absurd hdir hf.internal
      | forward =>
        cases hb : f.hasBody with
        | true => rfl
        | false =>
          simp only [hdir, hb, hf.called, decide_true, Bool.not_false, Bool.and_self,
            not_true_eq_false] at hnot

/-! ## programs -/

/-- The functions that are compiled are those that have a body. -/
theorem FunctionsTranslated.implemented {P : String → Prop} {c d : Compiler} {rs : List Routine}
    {code : List Line} (h : FunctionsTranslated P c d rs code)
    (hnone : ∀ id, c.scopes.function? id = none) {name : String} {f : Signature}
    (hf : d.scopes.function? name = some f) (hb : f.hasBody = true) : ∃ r ∈ rs, r.Implements f := by
  rcases h.bodies name f hf hb with ⟨r, hr, hname⟩ | ⟨g, hg, _⟩
  · obtain ⟨g, hg, hrg⟩ := h.found r hr
    have hgf : d.scopes.function? r.activation.name = some f := by
      unfold Scopes.function?
      rw [← Table.find?_congr _ hname]
      exact hf
    rw [hgf] at hg
    cases hg
    exact ⟨r, hr, hrg⟩
  · rw [hnone] at hg
    cases hg

theorem FunctionsTranslated.sound {P : String → Prop} {c d e : Compiler} {rs : List Routine}
    {code : List Line} {u : Unit} (h : FunctionsTranslated P c d rs code)
    (hnone : ∀ id, c.scopes.function? id = none) (hm : d.Moves e)
    (hcheck : checkForwards e.scopes = .ok u) : Layout.Sound P ⟨e.scopes, rs⟩ := by
  have hready := hm.ready h.ready
  refine ⟨hready.current, fun r hr => ?_, h.distinct, fun name f hf => ?_⟩
  · obtain ⟨g, hg, hrg⟩ := h.found r hr
    obtain ⟨_, hP, hmain⟩ := h.ready.labelled _ g hg
    rw [hrg.label] at hP hmain
    exact ⟨hP, hmain⟩
  · have hb := hasBody_of_checkForwards hready hcheck hf
    obtain ⟨g, hg, hgrow, hbody⟩ := hm.uses.reflects hf.function
    obtain ⟨r, hr, hrg⟩ := h.implemented hnone hg (hbody.symm.trans hb)
    exact ⟨r, hr, hrg.grows hgrow⟩

/-- The routines of a program are the blocks of its functions. -/
theorem Program.mem_routines {p : Program} {L : Layout} (h : p.layout? = some L) {r : Routine}
    (hr : r ∈ L.routines) : ∃ f ∈ p.block.functions, f.block? = some r.block := by
  unfold Program.layout? at h
  split at h
  · cases h
    exact mem_routinesFrom hr
  · cases h

/-- **The code that comes out of a compilation is the code of the program.** -/
theorem program_translates {P : String → Prop} {p : Program} {code : List Line} {d : Compiler}
    (hP : ∀ f ∈ p.block.functions, P f.name)
    (h : p.compile .initial = .ok code d) :
    ∃ L, p.layout? = some L ∧ L.Sound P ∧ (∃ log, p.Regions L code log) ∧ ProgramCode L p code := by
  have hlayout := h
  obtain ⟨name, parameters, ⟨fs, vs, ss⟩⟩ := p
  rw [Program.compile] at h
  simp only [bind_eq_ok, scopes_eq_ok, check_eq_ok, pure_eq_ok] at h
  obtain ⟨decls, c₁, hdecls, funs, c₂, hfuns, stmts, c₃, hstmts, _, _, ⟨rfl, rfl⟩, _, _, ⟨hcheck, rfl⟩,
    rfl, rfl⟩ := h
  have he₀ : Compiler.initial.scopes.Entered := nofun
  obtain ⟨log₁, hd, hfound₁, hlog₁, hc₁⟩ := declarations_translate he₀ hdecls
  have hf := functions_translate (hd.ready (Compiler.initial_ready P)) hP hfuns
  have hcur₂ := hf.ready.current
  have he₂ : c₂.scopes.Entered := by
    intro g hg
    rw [hcur₂] at hg
    cases hg
  obtain ⟨hm, ⟨log₃, ha₃, hlog₃⟩, hc₃⟩ := stmts_translate ss he₂ hstmts
  have hnone : ∀ id, c₁.scopes.function? id = none := hd.declares.function?
  refine ⟨⟨c₃.scopes, routinesFrom c₁ fs⟩, ?_, hf.sound hnone hm hcheck, ?_, ?_⟩
  · have hdecls' : compileVariables (Block.mk fs vs ss).declarations Compiler.initial = .ok decls c₁ := hdecls
    unfold Program.layout?
    rw [hlayout, hdecls']
    rfl
  · obtain ⟨log₂, ha₂, hlog₂⟩ := hf.allocates
    have heach : ∀ g ∈ log₁ ++ log₂ ++ log₃, Program.HasRegion ⟨name, parameters, ⟨fs, vs, ss⟩⟩
        ⟨c₃.scopes, routinesFrom c₁ fs⟩ (decls ++ emit [.jump "main"] ++ funs ++ [.label "main"]
          ++ emitBasic [.start] ++ stmts ++ emitBasic [.stop]) g := by
      intro g hg
      simp only [List.mem_append] at hg
      rcases hg with (hg | hg) | hg
      · have hdecl := And.intro (hd.declares.owner g hg) (hlog₁ g hg).1
        exact ⟨((((((hlog₁ g hg).2.left _).left _).left _).left _).left _).left _,
          fun _ => .inl hdecl, .inr (.inl hdecl)⟩
      · exact ⟨(((((hlog₂.named g hg).right _).left _).left _).left _).left _,
          fun hstring => .inr (hlog₂.texts g hg hstring), (hlog₂.declared g hg).imp id .inr⟩
      · have hcontrol := (hlog₃ g hg).1
        exact ⟨((hcontrol.single.namedIn (hlog₃ g hg).2).right _).left _,
          fun hstring => absurd (hcontrol.2.symm.trans hstring) nofun, .inl hcontrol.single⟩
    refine ⟨_, (hd.declares.allocates.trans ha₂).trans ha₃, fun g hg => (heach g hg).named, fun r hr => ?_,
      fun g hg => (heach g hg).text, fun v hv => ?_, fun r hr v hv => ?_, fun g hg => (heach g hg).declared⟩
    · exact List.mem_append_left _ (List.mem_append_right _ (hlog₂.results r hr))
    · have hplaces := hd.places he₀ hfound₁ v hv
      rw [hd.declares.current] at hplaces
      refine hplaces.mono (fun g hg => ?_) fun id w hw => (ha₂.trans ha₃).keeps hw
      exact List.mem_append_left _ (List.mem_append_left _ hg)
    · refine (hlog₂.places r hr v hv).mono (fun g hg => ?_) fun id w hw => ha₃.keeps hw
      exact List.mem_append_left _ (List.mem_append_right _ hg)
  · have hshows : c₁.scopes.Shows c₃.scopes := by
      intro id v hv
      have hv₂ : c₂.scopes.currentTable.find? id = some v := by
        rw [Scopes.currentTable_none hcur₂, hf.globals]
        rw [Scopes.currentTable_none hd.declares.current] at hv
        exact hv
      exact Scopes.resolve?_of_currentTable (hm.uses.keepsTable he₂ id v hv₂)
    have hcount : c₁.counters = ⟨0, 0, 0⟩ := by
      unfold Compiler.counters
      rw [hd.others]
      rfl
    have hroutines := hf.code ⟨c₃.scopes, routinesFrom c₁ fs⟩ fun r hr => by
      obtain ⟨g, hg, hrg⟩ := hf.found r hr
      exact (hm.uses.kept hcur₂).inside _ g hg hrg.hasBody
    rw [hcount] at hroutines
    exact .mk (hc₁ _ hshows) hroutines (hc₃ _ ⟨hf.ready.activation.symm, .refl _⟩)

end PascalStack
