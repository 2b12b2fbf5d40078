import PascalStack.Proofs.Compiler.Programs
import PascalStack.Proofs.Simulation.Statements

/-!
# Code of functions and programs follows their evaluation

* `declarations_compute`   variables get their first values;
* `parameters_compute`     arguments are stored in the slots of parameters;
* `Layout.Fits`            what is asked of the places of functions and variables;
* `calls_computed`         calls of functions, by induction on the depth to which they are nested;
* `program_computes`       the code of a program.
-/

namespace PascalStack

section
variable {code : Code} {targets : String → Option Nat} {w : Watch} {n p q : Nat} {S : Scopes}

/-! ## declarations -/

theorem Eval.storeSlot_lt {slot : Nat} {v : Value} {m m' : Memory} {u : Unit}
    (h : Eval.storeSlot slot v m = .ok u m') : slot < maxGlobals := by
  unfold Eval.storeSlot Eval.checkSlot at h
  by_cases hslot : slot < maxGlobals
  · exact hslot
  · rw [if_neg hslot] at h
    cases h

theorem Computes.fill {v : Value} {size base : Nat} (hbase : base < wordSize)
    (hp : Placed code targets p (emit ((List.range' base size).map fun slot => .storeg (some slot))) q) :
    Computes code w n p q (List.replicate size v) (PascalStack.fill v (List.range' base size))
      fun _ => [] := by
  induction size generalizing base p with
  | zero =>
    obtain rfl : p = q := hp
    exact @Computes.pure code w _ n p (fun _ => []) ()
  | succ size ih =>
    rw [List.range'_succ] at hp ⊢
    obtain ⟨m, hstore, hrest⟩ := hp.uncons
    rw [PascalStack.fill]
    -- only a slot that exists is followed by the next one
    refine ((Computes.store hbase hstore).frame (List.replicate size v)).bind_of_ok
      fun _ ⟨_, _, hok⟩ => ?_
    have hnext : base + 1 < wordSize := by
      have := Eval.storeSlot_lt hok
      have hmax : maxGlobals < wordSize := by decide
      omega
    exact ih hnext hrest

theorem arraySize?_le {l h : Int64} {size : Nat} (hs : arraySize? l h = some size) : size ≤ maxGlobals := by
  unfold arraySize? at hs
  simp only at hs
  split at hs
  · rename_i hcount
    cases hs
    have hmax : maxArraySize = 65536 := rfl
    have hglob : maxGlobals = 1048576 := rfl
    omega
  · cases hs

theorem names_compute (hslots : S.SlotsFit) {v : VarDecl} {names : List String} {seg : List Line}
    (h : NamesCode S v.type names seg) (hp : Placed code targets p seg q) :
    Computes code w n p q [] (initialiseAll S v names) fun _ => [] := by
  induction h generalizing p with
  | nil =>
    obtain rfl : p = q := hp
    exact @Computes.pure code w _ n p (fun _ => []) ()
  | @scalar t name names slot rest ht hr _ ih =>
    obtain ⟨m, hone, hrest⟩ := placed_append.mp hp
    rw [initialiseAll]
    refine Computes.bind ?_ fun _ => ih hrest
    have hinit : v.initialise S name = Eval.storeSlot slot t.initialValue := by
      unfold VarDecl.initialise
      rw [hr]
      cases hv : v.type with
      | array low high element =>
        rw [hv] at ht
        cases ht
      | _ => rfl
    rw [hinit]
    obtain ⟨m', hpush, hstore⟩ := hone.uncons
    have hslot : slot < wordSize := hslots name _ hr
    cases t <;> exact .push rfl rfl rfl (fun _ => rfl) hpush (.store hslot hstore)
  | @array low high element l h size t name names base rest htype ht hl hh hsize hr _ ih =>
    obtain ⟨m, hone, hrest⟩ := placed_append.mp hp
    rw [initialiseAll]
    refine Computes.bind ?_ fun _ => ih hrest
    have hinit : v.initialise S name = PascalStack.fill .zero (List.range' base size) := by
      unfold VarDecl.initialise
      rw [hr, htype]
      simp only [hl, hh, hsize, Option.getD_some]
    rw [hinit]
    obtain ⟨m', hzeros, hstores⟩ := hone.uncons
    obtain ⟨hop, rfl⟩ := hzeros.single
    obtain ⟨o, ho, hcode⟩ := hop (decide_eq_true (arraySize?_le hsize))
    cases ho
    have hpush : Computes code w n p (p + 1) [] (pure ()) fun _ => List.replicate size .zero :=
      .of_quiet hcode rfl (does_pushn size)
    exact hpush.bind fun _ => .fill (hslots name _ hr) hstores

theorem declarations_compute (hslots : S.SlotsFit) {vs : List VarDecl} {seg : List Line}
    (h : DeclarationsCode S vs seg) (hp : Placed code targets p seg q) :
    Computes code w n p q [] (declareVariables S vs) fun _ => [] := by
  induction h generalizing p with
  | nil =>
    obtain rfl : p = q := hp
    exact @Computes.pure code w _ n p (fun _ => []) ()
  | cons hnames _ ih =>
    obtain ⟨m, hfirst, hrest⟩ := placed_append.mp hp
    rw [declareVariables]
    exact (names_compute hslots hnames hfirst).bind fun _ => ih hrest

/-! ## parameters -/

theorem parameters_compute (hslots : S.SlotsFit) {ps : List (String × DataType)} {slots : List Nat}
    {vs : List Value} (h : ParameterSlots S ps slots) (hvs : vs.length = ps.length)
    (hp : Placed code targets p (emit (slots.reverse.map fun slot => .storeg (some slot))) q) :
    Computes code w n p q vs.reverse (storeParameters S ((ps.map Prod.fst).zip vs)) fun _ => [] := by
  induction h generalizing vs q with
  | nil =>
    obtain rfl : p = q := hp
    obtain rfl := List.length_eq_zero_iff.mp hvs
    exact @Computes.pure code w _ n p (fun _ => []) ()
  | @cons name t slot ps slots hr _ ih =>
    match vs, hvs with
    | v :: vs, hvs =>
      rw [List.reverse_cons, List.map_append, emit, List.map_append] at hp
      obtain ⟨m, hrest, hlast⟩ := placed_append.mp hp
      have hlen : vs.length = ps.length := Nat.succ.inj hvs
      rw [List.reverse_cons, List.map_cons, List.zip_cons_cons, storeParameters, hr]
      exact ((ih hlen hrest).frame [v]).bind fun _ => .store (hslots name _ hr) hlast

end

/-! ## functions -/

structure Layout.SlotsFit (L : Layout) : Prop where
  main : L.context.SlotsFit
  routines : ∀ r ∈ L.routines, (L.contextOf r).SlotsFit

/-- Every name in sight has its region: it belongs to the function at hand or is global. -/
theorem Program.Regions.resolved {p : Program} {L : Layout} {code : List Line} {log : List Region}
    (h : p.Regions L code log) {S : Scopes} (hlocals : S.locals = L.scopes.locals)
    (hglobals : S.globals = L.scopes.globals) {id : String} {v : Variable} (hv : S.resolve? id = some v) :
    ∃ g ∈ log, ∃ owner, (owner = S.current ∨ owner = none) ∧ Region.Of owner id v g := by
  have hregion : ∀ owner, S.declared? owner id = some v → ∃ g ∈ log, Region.Of owner id v g := by
    intro owner hv
    have hv : L.scopes.declared? owner id = some v := by
      cases owner <;> simpa only [Scopes.declared?, hlocals, hglobals] using hv
    rcases h.allocates.declared? hv with hv | hg
    · cases owner <;> cases hv
    · exact hg
  rcases Scopes.resolve?_declared? hv with hv | hv
  · obtain ⟨g, hg, hof⟩ := hregion _ hv
    exact ⟨g, hg, _, .inl rfl, hof⟩
  · obtain ⟨g, hg, hof⟩ := hregion _ hv
    exact ⟨g, hg, _, .inr rfl, hof⟩

theorem Program.Regions.slotsFit {p : Program} {L : Layout} {code : List Line} {log : List Region}
    (h : p.Regions L code log) {S : Scopes} (hlocals : S.locals = L.scopes.locals)
    (hglobals : S.globals = L.scopes.globals) : S.SlotsFit := by
  intro id v hv
  obtain ⟨g, hg, _, _, hof⟩ := h.resolved hlocals hglobals hv
  rw [← hof.slot]
  exact h.allocates.slot_lt (by decide) g hg

theorem Program.Regions.layout_slotsFit {p : Program} {L : Layout} {code : List Line} {log : List Region}
    (h : p.Regions L code log) : L.SlotsFit := by
  refine ⟨⟨h.slotsFit rfl rfl, nofun⟩, fun r hr => ⟨h.slotsFit rfl rfl, fun a ha => ?_⟩⟩
  cases ha
  exact h.allocates.slot_lt (by decide) _ (h.results r hr)

section
variable {code : Code} {targets : String → Option Nat} {w : Watch} {n p q : Nat} {L : Layout}
  {P : String → Prop}

/-- The label of a function that may be called leads to its routine. -/
theorem Layout.Sound.routine? (h : L.Sound P) {r : Routine} (hr : r ∈ L.routines) :
    L.routine? r.activation.name = some r := by
  unfold Layout.routine?
  have hdistinct := h.distinct
  generalize L.routines = rs at hr hdistinct
  induction rs with
  | nil => cases hr
  | cons r' rs ih =>
    obtain ⟨hfirst, hrest⟩ := List.pairwise_cons.mp hdistinct
    rcases List.mem_cons.mp hr with rfl | hr
    · rw [List.find?_cons_of_pos (by simp)]
    · have hne : r'.activation.name ≠ r.activation.name :=
        fun heq => hfirst r hr (congrArg foldName heq)
      rw [List.find?_cons_of_neg (by simpa using hne)]
      exact ih hr hrest

/-- The code of a function. -/
theorem routine_computes {r : Routine} {seg : List Line} {k k' : Counters} {vs : List Value}
    (hr : r ∈ L.routines) (hset : stmtsSetFree r.block.statements = true) (hslots : L.SlotsFit)
    (h : RoutineCode L k r seg k')
    (hcalls : CallsComputed code targets w n L.scopes (L.callAt w n))
    (hvs : vs.length = r.parameters.length) (hp : Placed code targets p seg q) :
    targets r.activation.name = some p ∧ ∃ back, code[back]? = some (.ok (.basic .ret)) ∧
      Computes code w n p back vs.reverse
        (storeParameters (L.contextOf r).scopes ((r.parameters.map Prod.fst).zip vs) >>= fun _ =>
          declareVariables (L.contextOf r).scopes r.block.declarations >>= fun _ =>
            execAll w (L.contextOf r) (L.callAt w n) n r.block.statements >>= fun _ =>
              Eval.loadSlot w r.activation.slot) fun v => [v] := by
  have hfit := hslots.routines r hr
  cases h with
  | mk hparameters hdeclarations hstatements =>
    obtain ⟨m₄, hp, hend⟩ := placed_append.mp hp
    obtain ⟨m₃, hp, hstmts⟩ := placed_append.mp hp
    obtain ⟨m₂, hp, hdecls⟩ := placed_append.mp hp
    obtain ⟨m₁, hlabel, hstores⟩ := placed_append.mp hp
    obtain ⟨htarget, rfl⟩ := hlabel.label
    obtain ⟨m₅, hload, hret⟩ := hend.uncons
    obtain ⟨hreturn, rfl⟩ := Placed.basic hret
    refine ⟨htarget, m₅, hreturn, ?_⟩
    refine (parameters_compute hfit.declared hparameters hvs hstores).bind fun _ => ?_
    refine (declarations_compute hfit.declared hdeclarations hdecls).bind fun _ => ?_
    refine (stmts_compute hfit ?_ _ hset hstatements hstmts).bind fun _ => ?_
    · exact fun name f hf => hcalls name f ⟨hf.function, hf.called, hf.internal⟩
    · exact .load (hfit.result _ rfl) hload

def RoutinesPlaced (code : Code) (targets : String → Option Nat) (L : Layout) : Prop :=
  ∀ r ∈ L.routines, ∃ k seg k' p q, RoutineCode L k r seg k' ∧ Placed code targets p seg q

def Layout.SetFree (L : Layout) : Prop := ∀ r ∈ L.routines, stmtsSetFree r.block.statements = true

theorem calls_computed (hsound : L.Sound P) (hset : L.SetFree) (hslots : L.SlotsFit)
    (hplaced : RoutinesPlaced code targets L) (n : Nat) :
    CallsComputed code targets w n L.scopes (L.callAt w n) := by
  induction n with
  | zero => exact fun _ _ _ _ _ p _ _ s _ _ => ⟨0, p, s, Nat.le_refl 0, .refl p s⟩
  | succ n ih =>
    intro name f hf vs hvs p q hp
    obtain ⟨r, hr, himp⟩ := hsound.callable name f hf
    obtain ⟨k, seg, k', a, b, hcode, hseg⟩ := hplaced r hr
    have hlen : vs.length = r.parameters.length := by
      rw [hvs, himp.parameters, List.length_map]
    obtain ⟨htarget, back, hret, hbody⟩ := routine_computes hr (hset r hr) hslots hcode ih hlen hseg
    rw [himp.label] at hp ⊢
    obtain ⟨m, hpush, hcall⟩ := hp.uncons
    obtain ⟨hop, rfl⟩ := hpush.single
    obtain ⟨o, ho, hpush⟩ := hop rfl
    rw [Op.resolve?, htarget] at ho
    cases ho
    obtain ⟨henter, rfl⟩ := Placed.basic hcall
    rw [Layout.callAt, hsound.routine? hr]
    exact .call hpush henter hret hbody

/-! ## programs -/

theorem routinesPlaced_of_code {k k' : Counters} {rs : List Routine} {seg : List Line}
    (h : RoutinesCode L k rs seg k') (hp : Placed code targets p seg q) :
    ∀ r ∈ rs, ∃ k seg k' p q, RoutineCode L k r seg k' ∧ Placed code targets p seg q := by
  induction h generalizing p with
  | nil => nofun
  | cons hfirst _ ih =>
    obtain ⟨m, hone, hrest⟩ := placed_append.mp hp
    intro r hr
    rcases List.mem_cons.mp hr with rfl | hr
    · exact ⟨_, _, _, p, m, hfirst, hone⟩
    · exact ih hrest r hr

/-- The code of a program follows its evaluation up to the instruction that stops the run. -/
theorem program_computes {prog : Program} {lines : List Line} (hsound : L.Sound P) (hset : L.SetFree)
    (hfree : stmtsSetFree prog.block.statements = true) (hslots : L.SlotsFit)
    (h : ProgramCode L prog lines) (hp : Placed code targets p lines q) :
    ∃ last, code[last]? = some (.ok (.basic .stop)) ∧
      Computes code w n p last [] (prog.exec w L n) fun _ => [] := by
  cases h with
  | mk hdeclarations hroutines hstatements =>
    obtain ⟨m₆, hp, hstop⟩ := placed_append.mp hp
    obtain ⟨m₅, hp, hstmts⟩ := placed_append.mp hp
    obtain ⟨m₄, hp, hstart⟩ := placed_append.mp hp
    obtain ⟨m₃, hp, hmain⟩ := placed_append.mp hp
    obtain ⟨m₂, hp, hfunctions⟩ := placed_append.mp hp
    obtain ⟨m₁, hdecls, hjump⟩ := placed_append.mp hp
    obtain ⟨hmain, rfl⟩ := hmain.label
    obtain ⟨hlast, rfl⟩ := hstop.basic
    obtain ⟨hfirst, rfl⟩ := hstart.basic
    have hcalls := calls_computed (w := w) hsound hset hslots
      (routinesPlaced_of_code hroutines hfunctions) n
    refine ⟨m₆, hlast, (declarations_compute hslots.main.declared hdeclarations hdecls).bind fun _ => ?_⟩
    refine (Computes.jump hjump hmain ?_).mono (Nat.le_succ n)
    have hbegin : Computes code w n m₄ (m₄ + 1) [] (pure ()) fun _ => [] :=
      .of_quiet hfirst rfl does_start
    exact hbegin.bind fun _ => stmts_compute hslots.main hcalls _ hfree hstatements hstmts

end

end PascalStack
