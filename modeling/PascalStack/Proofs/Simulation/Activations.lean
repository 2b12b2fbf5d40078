import PascalStack.Proofs.Compiler.Listing
import PascalStack.Proofs.Simulation.Contained

/-!
# Variables of an activation

The variables of a function have slots of their own, the same ones for all its activations.

* `Program.arrayFree`          programs without arrays;
* `Regions.apart`              no function writes the variables of another;
* `Inside`, `routine_inside`   the code of a function is left only by calls and returns;
* `locals_kept`                a call leaves the variables of its caller as they were, unless it comes
                               to enter the caller again.
-/

namespace PascalStack

/-! ## programs without arrays -/

def TypeDenoter.isArray : TypeDenoter → Bool
  | .array _ _ _ => true
  | _ => false

def Block.arrayFree (b : Block) : Bool := b.declarations.all fun v => !v.type.isArray

def Program.arrayFree (p : Program) : Bool :=
  p.block.arrayFree && p.block.functions.all fun f => f.block?.all Block.arrayFree

section
variable {p : Program} {L : Layout} {code : List Line} {log : List Region}

theorem Region.DeclaredBy.single {b : Block} {v : VarDecl} {g : Region} (hb : b.arrayFree = true)
    (hv : v ∈ b.declarations) (h : g.DeclaredBy v.type v.names) : g.Single := by
  rcases h.shape with ⟨t, ht, hsize, hshape⟩ | ⟨low, high, element, _, _, _, htype, _⟩
  · exact ⟨hsize, t, DataType.ofScalar?_ne_array ht, hshape⟩
  · have hnot := List.all_eq_true.mp hb v hv
    rw [htype] at hnot
    cases hnot

/-- Without arrays every variable has one slot. -/
theorem Program.Regions.single (h : p.Regions L code log) (hlayout : p.layout? = some L)
    (harrays : p.arrayFree = true) : ∀ g ∈ log, g.Single := by
  obtain ⟨hmain, hfunctions⟩ := (Bool.and_eq_true _ _).mp harrays
  intro g hg
  rcases h.declared g hg with hs | ⟨_, v, hv, hdecl⟩ | ⟨r, hr, _, v, hv, hdecl⟩
  · exact hs
  · exact hdecl.single hmain hv
  · obtain ⟨f, hf, hblock⟩ := Program.mem_routines hlayout hr
    have hfree := List.all_eq_true.mp hfunctions f hf
    rw [hblock] at hfree
    exact hdecl.single hfree hv

theorem Program.Regions.arrayFree (h : p.Regions L code log) (hsingle : ∀ g ∈ log, g.Single) {S : Scopes}
    (hlocals : S.locals = L.scopes.locals) (hglobals : S.globals = L.scopes.globals) : S.ArrayFree := by
  intro id v hv
  obtain ⟨g, hg, _, _, hof⟩ := h.resolved hlocals hglobals hv
  obtain ⟨_, t, ht, hshape⟩ := hsingle g hg
  rw [hof.shape] at hshape
  unfold Variable.type
  rw [hshape]
  exact ht

/-! ## the slots of a function -/

theorem length_slotsOf (code : List Line) : (slotsOf code).length ≤ code.length :=
  List.length_filterMap_le ..

theorem Program.Regions.consecutive (h : p.Regions L code log) (hwords : code.length < wordSize) :
    Consecutive 0 log :=
  h.allocates.consecutive h.named (names_length _)
    (Nat.lt_of_le_of_lt (length_slotsOf code) hwords) fun _ hn => absurd hn (Nat.not_lt_zero _)

/-- Variables of different owners have different slots. -/
theorem slot_ne_of_owner (hcons : Consecutive 0 log) (hsingle : ∀ g ∈ log, g.Single) {g g' : Region}
    (hg : g ∈ log) (hg' : g' ∈ log) (howner : g.owner.map foldName ≠ g'.owner.map foldName) :
    g.slot ≠ g'.slot := by
  have hne : g ≠ g' := fun h => howner (congrArg (fun r => r.owner.map foldName) h)
  have hsize := (hsingle g hg).1
  have hsize' := (hsingle g' hg').1
  have hdisjoint : g.slot + g.size ≤ g'.slot ∨ g'.slot + g'.size ≤ g.slot := hcons.disjoint hg hg' hne
  omega

/-- No function writes the variables of another. -/
theorem Program.Regions.apart (h : p.Regions L code log) (hsingle : ∀ g ∈ log, g.Single)
    (hcons : Consecutive 0 log) {r r' : Routine} (hr' : r' ∈ L.routines)
    (hne : foldName r.activation.name ≠ foldName r'.activation.name) {id : String} {v : Variable}
    (hv : L.scopes.declared? (some r.activation.name) id = some v) :
    ¬ (L.contextOf r').Writes v.slot := by
  rcases h.allocates.declared? hv with hv | ⟨g, hg, hof⟩
  · cases hv
  · rw [← hof.slot]
    rintro (⟨a, ha, hslot⟩ | ⟨id', w, hw, hslot⟩)
    · cases ha
      refine slot_ne_of_owner hcons hsingle hg (h.results r' hr') (fun howner => hne ?_) hslot.symm
      rw [hof.owner] at howner
      exact Option.some.inj howner
    · obtain ⟨g', hg', owner, howner', hof'⟩ := h.resolved (S := (L.contextOf r').scopes) rfl rfl hw
      refine slot_ne_of_owner hcons hsingle hg hg' (fun howner => ?_) (hslot.symm.trans hof'.slot.symm)
      rw [hof.owner, hof'.owner] at howner
      rcases howner' with rfl | rfl
      · exact hne (Option.some.inj howner)
      · cases howner

end

/-! ## the code of a function -/

section
variable {code : Code} {entry : Nat → Prop}

theorem Op.Stays.mono {In In' W W' : Nat → Prop} {p : Nat} {op : Op Nat}
    (hIn : ∀ p, In p → In' p) (hW : ∀ n, W n → W' n) (h : op.Stays code In W entry p) :
    op.Stays code In' W' entry p := by
  cases op with
  | storeg slot =>
    obtain ⟨⟨n, hn, hw⟩, hnext⟩ := h
    exact ⟨⟨n, hn, hW n hw⟩, hIn _ hnext⟩
  | jump target => exact ⟨hIn _ h.1, h.2⟩
  | jz target => exact ⟨⟨hIn _ h.1.1, h.1.2⟩, hIn _ h.2⟩
  | basic b =>
    cases b with
    | call => exact ⟨h.1, hIn _ h.2⟩
    | ret | stop => trivial
    | _ => exact hIn _ h
  | _ => exact hIn _ h

/-- A position in a part of code that works for a context. -/
def Inside (code : Code) (entry : Nat → Prop) (x : Context) (p : Nat) : Prop :=
  ∃ In, In p ∧ Closed code In x.Writes entry

variable {targets : String → Option Nat} {L : Layout} {P : String → Prop}

def Layout.Entry (L : Layout) (targets : String → Option Nat) (e : Nat) : Prop :=
  ∃ r ∈ L.routines, targets r.activation.name = some e

/-- A position in the code of some of the functions of a layout. -/
def Layout.Part (L : Layout) (code : Code) (targets : String → Option Nat) (X : Routine → Prop)
    (p : Nat) : Prop :=
  ∃ r ∈ L.routines, X r ∧ Inside code (L.Entry targets) (L.contextOf r) p

theorem closed_part (L : Layout) (code : Code) (targets : String → Option Nat) (X : Routine → Prop) :
    Closed code (L.Part code targets X) (fun n => ∃ r ∈ L.routines, X r ∧ (L.contextOf r).Writes n)
      (L.Entry targets) := by
  rintro p op ⟨r, hr, hX, In, hp, hc⟩ hop
  exact (hc p op hp hop).mono (fun q hq => ⟨r, hr, hX, In, hq, hc⟩) fun n hn => ⟨r, hr, hX, hn⟩

/-- The code of a function is left only by calls and returns. -/
theorem routine_inside {r : Routine} {seg : List Line} {k k' : Counters} {a b : Nat}
    (hsound : L.Sound P) (hfit : (L.contextOf r).SlotsFit) (harray : (L.contextOf r).scopes.ArrayFree)
    (h : RoutineCode L k r seg k') (hp : Placed code targets a seg b) :
    targets r.activation.name = some a ∧ Inside code (L.Entry targets) (L.contextOf r) a ∧
      ¬ IsCall code a := by
  obtain @⟨slots, declarations, statements, k', hparameters, hdeclarations, hstatements⟩ := h
  let T := fun l => ∃ r ∈ L.routines, l = r.activation.name
  let J := fun l => l ∈ labelsOf statements
  have hT : ∀ name f, (L.contextOf r).scopes.Callable name f → T f.label := by
    intro name f hf
    obtain ⟨r', hr', himp⟩ := hsound.callable name f ⟨hf.function, hf.called, hf.internal⟩
    exact ⟨r', hr', himp.label⟩
  have hlines : Contained T J (L.contextOf r).Writes
      ([.label r.activation.name] ++ emit (slots.reverse.map fun slot => .storeg (some slot))
        ++ declarations ++ statements ++ emit [.pushg (some r.activation.slot)]) :=
    (((Contained.append (.label .nil) (hparameters.contained hfit)).append
      (hdeclarations.contained hfit harray)).append
      (hstatements.contained hT hfit harray fun _ hl => hl)).append
      (.one (contained_pushg (hfit.result _ rfl)))
  obtain ⟨m, hbody, hend⟩ := placed_append.mp hp
  obtain ⟨back, hload, hret⟩ := hend.uncons
  obtain ⟨hret, -⟩ := Placed.basic hret
  have hplaced := placed_append.mpr ⟨m, hbody, hload⟩
  have hback : back = m + 1 := hload.single.2
  have hlt : a < back := hback ▸ Nat.lt_succ_of_le hbody.le
  have hreturn : ¬ IsCall code back := by
    intro hcall
    rw [IsCall, hret] at hcall
    cases hcall
  obtain ⟨_, hp, -⟩ := placed_append.mp hbody
  obtain ⟨_, hp, -⟩ := placed_append.mp hp
  obtain ⟨_, hlabel, -⟩ := placed_append.mp hp
  obtain ⟨htarget, -⟩ := hlabel.label
  have hJ : ∀ l target, J l → targets l = some target →
      (a ≤ target ∧ target ≤ back) ∧ ¬ IsCall code target := by
    intro l target hl ht
    obtain ⟨_, ht', hle, hle', hnot⟩ := hlines.label_target hplaced (l := l) (by
      simp only [labelsOf_append, List.mem_append]
      exact .inl (.inr hl))
    rw [ht] at ht'
    cases ht'
    refine ⟨⟨hle, hle'⟩, ?_⟩
    rcases Nat.lt_or_eq_of_le hle' with hlt | rfl
    · exact hnot hlt
    · exact hreturn
  refine ⟨htarget, ⟨fun p => a ≤ p ∧ p ≤ back, ⟨Nat.le_refl a, Nat.le_of_lt hlt⟩, fun p op hin hop => ?_⟩,
    hlines.not_isCall hplaced hlt⟩
  rcases Nat.lt_or_eq_of_le hin.2 with hb | rfl
  · refine hlines.stays hplaced ?_ hJ (fun p hle hle' => ⟨hle, hle'⟩) p op hin.1 hb hop
    rintro l e ⟨r', hr', rfl⟩ he
    exact ⟨r', hr', he⟩
  · rw [hret] at hop
    cases hop
    trivial

theorem Layout.Sound.eq_of_foldName (hsound : L.Sound P) {r r' : Routine} (hr : r ∈ L.routines)
    (hr' : r' ∈ L.routines) (h : foldName r.activation.name = foldName r'.activation.name) : r = r' := by
  have hnodup : (L.routines.map fun r => foldName r.activation.name).Nodup :=
    List.pairwise_map.mpr hsound.distinct
  exact List.inj_on_of_nodup_map hnodup hr hr' h

/-- The functions of a program have their places in its code. -/
theorem ProgramCode.routinesPlaced {prog : Program} {lines : List Line} {a b : Nat}
    (h : ProgramCode L prog lines) (hp : Placed code targets a lines b) : RoutinesPlaced code targets L := by
  obtain @⟨declarations, functions, statements, k, k', -, hroutines, -⟩ := h
  obtain ⟨_, hp, -⟩ := placed_append.mp hp
  obtain ⟨_, hp, -⟩ := placed_append.mp hp
  obtain ⟨_, hp, -⟩ := placed_append.mp hp
  obtain ⟨_, hp, -⟩ := placed_append.mp hp
  obtain ⟨_, -, hfunctions⟩ := placed_append.mp hp
  exact routinesPlaced_of_code hroutines hfunctions

end

section
variable {source : String} {code : List Line} {p : Program} {L : Layout}

/-- **A call leaves the variables of its caller as they were**, unless the caller is entered again before
it returns. -/
theorem locals_kept (hcompile : compile source = .ok code) (htree : (report source).accepted = .ok p)
    (hlayout : p.layout? = some L) (harrays : p.arrayFree = true) (hlabels : (labelsOf code).Nodup)
    (hwords : code.length < wordSize) :
    ∃ img, load (codeText code) = .ok img ∧ ∀ r ∈ L.routines, ∃ entry,
      img.target? r.activation.name = some entry ∧ ∀ input q t q' t',
        CallsFrom img.code input entry q t → ReturnsAt img.code (· ≠ entry) q t q' t' →
        q' = q + 1 ∧ ∀ id v, L.scopes.declared? (some r.activation.name) id = some v →
          t'.memory.slots v.slot = t.memory.slots v.slot := by
  obtain ⟨_, _, log, htree', hlayout', hsound, hregions, hprogram⟩ := compile_code hcompile
  cases htree.symm.trans htree'
  cases hlayout.symm.trans hlayout'
  obtain ⟨_, _, -, -, htargets⟩ := hprogram.labels hsound
  obtain ⟨img, _, hload, hplaced⟩ := load_codeText hprogram.ne_nil
    (hprogram.readable hsound fun _ hname => hname) hlabels htargets
  have hsingle := hregions.single hlayout harrays
  have hinside : ∀ r ∈ L.routines, ∃ a, img.target? r.activation.name = some a ∧
      Inside img.code (L.Entry img.target?) (L.contextOf r) a ∧ ¬ IsCall img.code a := by
    intro r hr
    obtain ⟨k, seg, k', a, b, hcode, hseg⟩ := hprogram.routinesPlaced hplaced r hr
    exact ⟨a, routine_inside hsound (hregions.layout_slotsFit.routines r hr)
      (hregions.arrayFree hsingle rfl rfl) hcode hseg⟩
  refine ⟨img, hload, fun r hr => ?_⟩
  obtain ⟨a, htarget, ha, hfirst⟩ := hinside r hr
  refine ⟨a, htarget, fun input q t q' t' hcall hreturn => ?_⟩
  -- where a function begins, and whether it is the caller
  have hentry : ∀ e, L.Entry img.target? e → L.Part img.code img.target? (fun _ => True) e ∧
      (e ≠ a → L.Part img.code img.target? (· ≠ r) e) ∧ ¬ IsCall img.code e := by
    rintro e ⟨r', hr', he⟩
    obtain ⟨e', he', hin, hnot⟩ := hinside r' hr'
    cases he.symm.trans he'
    refine ⟨⟨r', hr', trivial, hin⟩, fun hne => ⟨r', hr', fun hsame => hne ?_, hin⟩, hnot⟩
    rw [hsame] at he
    exact Option.some.inj (he.symm.trans htarget)
  obtain ⟨hback, hslots⟩ := call_returns (closed_part L img.code img.target? (· = r))
    (closed_part L img.code img.target? fun _ => True) (closed_part L img.code img.target? (· ≠ r)) hentry
    ⟨r, hr, rfl, ha⟩ hfirst hcall hreturn
  refine ⟨hback, fun id v hv => hslots v.slot ?_⟩
  rintro ⟨r', hr', hne, hwrites⟩
  have hname : foldName r.activation.name ≠ foldName r'.activation.name :=
    fun hsame => hne (hsound.eq_of_foldName hr hr' hsame).symm
  exact hregions.apart hsingle (hregions.consecutive hwords) hr' hname hv hwrites

end

/-! ## calls that can be computed -/

section
variable (code : Code)

def advance? (P : Nat → State → Bool) : (n : Nat) → Nat → State → Option (Nat × State)
  | 0, p, s => if P p s then some (p, s) else none
  | n + 1, p, s =>
    if P p s then
      match step code p s with
      | (.suspended p', s') => advance? P n p' s'
      | _ => none
    else none

def next? (p : Nat) (s : State) : Option (Nat × State) :=
  match step code p s with
  | (.suspended p', s') => some (p', s')
  | _ => none

/-- A call that a run makes after so many steps, from an activation begun before, with its return. -/
structure TracedCall where
  entry : Nat
  position : Nat
  before : State
  back : Nat
  after : State

/-- The call that is made `n₁` steps after the first `n₀` steps of a run, if it comes back after `n₂` more;
`P` is asked of the entry of the caller and of the positions between call and return. -/
def tracedCall? (P : Nat → Nat → Bool) (n₀ n₁ n₂ : Nat) : Option TracedCall := do
  let (entry, s) ← advance? code (fun _ _ => true) n₀ 0 (.initial [])
  let (q, t) ← advance? code (fun _ u => s.calls.length ≤ u.calls.length) n₁ entry s
  let (e, u) ← next? code q t
  let (p, v) ← advance? code (fun p w => t.calls.length < w.calls.length && P entry p) n₂ e u
  let (q', t') ← next? code p v
  match code[q]? with
  | some (.ok (.basic .call)) =>
    if t.calls.length = s.calls.length ∧ t'.calls.length = t.calls.length then
      some ⟨entry, q, t, q', t'⟩
    else none
  | _ => none

variable {code}

theorem runsThrough_of_advance? {P : Nat → State → Bool} {Q : Nat → State → Prop}
    (hPQ : ∀ p s, P p s = true → Q p s) {n p q : Nat} {s t : State}
    (h : advance? code P n p s = some (q, t)) : RunsThrough code Q p s q t := by
  induction n generalizing p s with
  | zero =>
    rw [advance?] at h
    split at h
    · rename_i hP
      cases h
      exact .refl (hPQ _ _ hP)
    · cases h
  | succ n ih =>
    rw [advance?] at h
    split at h
    · rename_i hP
      split at h
      · rename_i p' s' hstep
        exact .step (hPQ _ _ hP) hstep (ih h)
      · cases h
    · cases h

theorem step_of_next? {p q : Nat} {s t : State} (h : next? code p s = some (q, t)) :
    step code p s = (.suspended q, t) := by
  unfold next? at h
  split at h
  · rename_i hstep
    cases h
    exact hstep
  · cases h

theorem tracedCall?_sound {P : Nat → Nat → Bool} {n₀ n₁ n₂ : Nat} {c : TracedCall}
    (h : tracedCall? code P n₀ n₁ n₂ = some c) :
    CallsFrom code [] c.entry c.position c.before ∧
      ReturnsAt code (fun p => P c.entry p = true) c.position c.before c.back c.after := by
  unfold tracedCall? at h
  simp only [Option.bind_eq_bind, Option.bind_eq_some_iff, Prod.exists] at h
  obtain ⟨entry, s, hentry, q, t, hq, e, u, he, p, v, hp, q', t', hback, h⟩ := h
  split at h
  · rename_i hcall
    split at h
    · rename_i hdepth
      cases h
      refine ⟨⟨hcall, s, runsThrough_of_advance? (fun _ _ _ => trivial) hentry,
        runsThrough_of_advance? (fun _ _ h => of_decide_eq_true h) hq, hdepth.1⟩,
        e, u, p, v, step_of_next? he, runsThrough_of_advance? (fun _ _ h => ?_) hp, step_of_next? hback,
        hdepth.2⟩
      rw [Bool.and_eq_true, decide_eq_true_eq] at h
      exact h
    · cases h
  · cases h

end

/-- A check of a source that compiles, of its tree, code, layout and image. -/
def checkSource (source : String) (check : Program → List Line → Layout → Image → Bool) : Bool :=
  match (report source).accepted with
  | .ok p =>
    match compileTree p, p.layout? with
    | .ok code, some L =>
      match load (codeText code) with
      | .ok img => check p code L img
      | .error _ => false
    | _, _ => false
  | .error _ => false

theorem checkSource_eq_true {source : String} {check : Program → List Line → Layout → Image → Bool} :
    checkSource source check = true ↔ ∃ p code L img, compile source = .ok code ∧
      (report source).accepted = .ok p ∧ p.layout? = some L ∧ load (codeText code) = .ok img ∧
      check p code L img = true := by
  constructor
  · intro h
    unfold checkSource at h
    split at h
    · rename_i p htree
      split at h
      · rename_i code L hcode hlayout
        split at h
        · rename_i img hload
          exact ⟨p, code, L, img, compile_eq_ok_iff.mpr ⟨p, htree, hcode⟩, htree, hlayout, hload, h⟩
        · cases h
      · cases h
    · cases h
  · rintro ⟨p, code, L, img, hcompile, htree, hlayout, hload, h⟩
    obtain ⟨q, hq, hcode⟩ := compile_eq_ok_iff.mp hcompile
    cases htree.symm.trans hq
    unfold checkSource
    simp only [htree, hcode, hlayout, hload, h]

/-- The same check, with the image made from the lines of code and not from their text. -/
def checkImage (source : String) (check : Program → List Line → Layout → Image → Bool) : Bool :=
  match (report source).accepted with
  | .ok p =>
    match compileTree p, p.layout? with
    | .ok code, some L => check p code L (imageOf code)
    | _, _ => false
  | .error _ => false

/-- Compiled code is loaded as the image of its lines. -/
theorem load_compiled {source : String} {code : List Line} (h : compile source = .ok code) :
    load (codeText code) = .ok (imageOf code) := by
  obtain ⟨_, _, _, -, -, hsound, -, hprogram⟩ := compile_code h
  obtain ⟨_, _, -, -, htargets⟩ := hprogram.labels hsound
  exact load_eq_imageOf hprogram.ne_nil (hprogram.readable hsound fun _ hname => hname) htargets

theorem checkSource_of_checkImage {source : String} {check : Program → List Line → Layout → Image → Bool}
    (h : checkImage source check = true) : checkSource source check = true := by
  unfold checkImage at h
  split at h
  · rename_i p htree
    split at h
    · rename_i code L hcode hlayout
      have hcompile := compile_eq_ok_iff.mpr ⟨p, htree, hcode⟩
      exact checkSource_eq_true.mpr ⟨p, code, L, _, hcompile, htree, hlayout, load_compiled hcompile, h⟩
    · cases h
  · cases h

/-- A function that calls itself, and in its last activation another one. -/
def recursiveSource : String :=
  "program p; function g: integer; begin g := 0 end; function f(n: integer): integer; " ++
    "begin if n = 0 then f := g else f := f(n - 1); writeln(n) end; begin f(1) end."

/-- The parameter of `f` before and after a call. -/
def TracedCall.parameter (c : TracedCall) (slot : Nat) : Option Int64 × Option Int64 :=
  (match c.before.memory.slots slot with | .integer n => some n | _ => none,
    match c.after.memory.slots slot with | .integer n => some n | _ => none)

/-- What is asked of the program and of two of its calls: the parameter of `f` is changed by the first, and
`f` is not entered again by the second. -/
def recursiveSourceRuns (p : Program) (code : List Line) (L : Layout) (img : Image) : Bool :=
  p.arrayFree && decide (labelsOf code).Nodup && decide (code.length < wordSize) &&
    L.routines.any fun r => (L.scopes.declared? (some r.activation.name) "n").any fun v =>
      ((tracedCall? img.code (fun _ _ => true) 5 9 17).any fun c =>
        decide (img.target? r.activation.name = some c.entry) &&
          decide (c.parameter v.slot = (some 1, some 0))) &&
      (tracedCall? img.code (fun entry p => p ≠ entry) 15 6 3).any fun c =>
        decide (img.target? r.activation.name = some c.entry)

theorem recursiveSource_calls : ∃ code p L img r v, compile recursiveSource = .ok code ∧
    (report recursiveSource).accepted = .ok p ∧ p.layout? = some L ∧ p.arrayFree = true ∧
    (labelsOf code).Nodup ∧ code.length < wordSize ∧ load (codeText code) = .ok img ∧ r ∈ L.routines ∧
    L.scopes.declared? (some r.activation.name) "n" = some v ∧
    (∃ c, tracedCall? img.code (fun _ _ => true) 5 9 17 = some c ∧
      img.target? r.activation.name = some c.entry ∧ c.parameter v.slot = (some 1, some 0)) ∧
    ∃ c, tracedCall? img.code (fun entry p => p ≠ entry) 15 6 3 = some c ∧
      img.target? r.activation.name = some c.entry := by
  have hrun : checkSource recursiveSource recursiveSourceRuns = true :=
    checkSource_of_checkImage (by decide +kernel)
  obtain ⟨p, code, L, img, hcompile, htree, hlayout, hload, hrun⟩ := checkSource_eq_true.mp hrun
  simp only [recursiveSourceRuns, Bool.and_eq_true, decide_eq_true_eq, List.any_eq_true,
    Option.any_eq_true] at hrun
  obtain ⟨⟨⟨harrays, hlabels⟩, hwords⟩, r, hr, v, hv, hcalls⟩ := hrun
  exact ⟨code, p, L, img, r, v, hcompile, htree, hlayout, harrays, hlabels, hwords, hload, hr, hv, hcalls⟩

/-- A call that enters the caller again can change the caller's parameter. -/
theorem recursiveSource_parameter_changes : ∃ code p L img r entry q t q' t' v,
    compile recursiveSource = .ok code ∧ (report recursiveSource).accepted = .ok p ∧
    p.layout? = some L ∧ p.arrayFree = true ∧ (labelsOf code).Nodup ∧ code.length < wordSize ∧
    load (codeText code) = .ok img ∧ r ∈ L.routines ∧ img.target? r.activation.name = some entry ∧
    CallsFrom img.code [] entry q t ∧ ReturnsAt img.code (fun _ => True) q t q' t' ∧
    L.scopes.declared? (some r.activation.name) "n" = some v ∧
    t'.memory.slots v.slot ≠ t.memory.slots v.slot := by
  obtain ⟨code, p, L, img, r, v, hcompile, htree, hlayout, harrays, hlabels, hwords, hload, hr, hv,
    ⟨c, hc, hentry, hparameter⟩, -⟩ := recursiveSource_calls
  obtain ⟨hcall, e, u, p', w, hstep, hrun, hreturn⟩ := tracedCall?_sound hc
  refine ⟨code, p, L, img, r, c.entry, c.position, c.before, c.back, c.after, v, hcompile, htree, hlayout,
    harrays, hlabels, hwords, hload, hr, hentry, hcall,
    ⟨e, u, p', w, hstep, hrun.mono fun _ _ h => ⟨h.1, trivial⟩, hreturn⟩, hv, fun hsame => ?_⟩
  unfold TracedCall.parameter at hparameter
  rw [hsame] at hparameter
  obtain ⟨hbefore, hafter⟩ := Prod.mk.inj hparameter
  cases hbefore.symm.trans hafter

theorem locals_kept_recursiveSource : ∃ code p L img r entry q t q' t' v,
    compile recursiveSource = .ok code ∧ (report recursiveSource).accepted = .ok p ∧
    p.layout? = some L ∧ p.arrayFree = true ∧ (labelsOf code).Nodup ∧ code.length < wordSize ∧
    load (codeText code) = .ok img ∧ r ∈ L.routines ∧ img.target? r.activation.name = some entry ∧
    CallsFrom img.code [] entry q t ∧ ReturnsAt img.code (· ≠ entry) q t q' t' ∧ q' = q + 1 ∧
    L.scopes.declared? (some r.activation.name) "n" = some v ∧
    t'.memory.slots v.slot = t.memory.slots v.slot := by
  obtain ⟨code, p, L, img, r, v, hcompile, htree, hlayout, harrays, hlabels, hwords, hload, hr, hv, -,
    c, hc, hentry⟩ := recursiveSource_calls
  obtain ⟨hcall, hreturn⟩ := tracedCall?_sound hc
  simp only [decide_eq_true_eq] at hreturn
  obtain ⟨img', hload', hkept⟩ := locals_kept hcompile htree hlayout harrays hlabels hwords
  cases hload.symm.trans hload'
  obtain ⟨entry, hentry', hkept⟩ := hkept r hr
  cases hentry.symm.trans hentry'
  obtain ⟨hback, hslots⟩ := hkept [] _ _ _ _ hcall hreturn
  exact ⟨code, p, L, img, r, c.entry, c.position, c.before, c.back, c.after, v, hcompile, htree, hlayout,
    harrays, hlabels, hwords, hload, hr, hentry, hcall, hreturn, hback, hv, hslots "n" v hv⟩

end PascalStack
