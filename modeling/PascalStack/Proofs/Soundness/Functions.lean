import PascalStack.Proofs.Simulation.Programs
import PascalStack.Proofs.Soundness.Runs
import PascalStack.Proofs.Soundness.Statements

/-!
# Functions and programs keep to types

* `Path.stores`, `Path.declarations`   code that gives variables their first values;
* `Setting.Texts`            the slots that have to be written before they are read;
* `RoutineCode.isFunction`   the code of a function;
* `ProgramCode.mainPart`     the code of a program up to the instruction that stops the run.
-/

namespace PascalStack

section
variable {W : Setting} {targets : String → Option Nat} {J F R : Nat → Prop} {Γ : List Kind} {p q : Nat}

/-! ## first values -/

/-- Values on the stack are stored one by one, from the top on. -/
theorem Path.stores {slots : List Nat} {Ks : List Kind}
    (h : List.Forall₂ (fun slot K => slot < maxGlobals ∧ ∀ v, K v → W.fits slot v) slots Ks)
    (hp : Placed W.code targets p (emit (slots.map fun slot => .storeg (some slot))) q) :
    Path W J F p R (Ks ++ Γ) q (fun n => n ∈ slots ∨ R n) Γ := by
  induction h generalizing p R with
  | nil =>
    cases hp
    exact Path.refl.forget fun n hn => hn.resolve_left List.not_mem_nil
  | @cons slot K slots Ks hslot _ ih =>
    obtain ⟨m, hstore, hrest⟩ := hp.uncons
    obtain ⟨hop, rfl⟩ := hstore.single
    obtain ⟨o, ho, hcode⟩ := hop (decide_eq_true (Nat.lt_of_lt_of_le hslot.1 (by decide)))
    cases ho
    refine (Path.op hcode (.store hslot.1 hslot.2) (ih hrest)).forget fun n hn => ?_
    rw [List.mem_cons] at hn
    tauto

theorem Path.initial {t : DataType} (ht : t ≠ .array) (hp : Placed W.code targets p (emit [t.initial]) q) :
    Path W J F p R Γ q R (t.Holds :: Γ) := by
  cases t with
  | integer => exact .push rfl rfl rfl (.integer 0) hp
  | real => exact .push rfl rfl rfl (.real 0) hp
  | boolean => exact .push rfl rfl rfl (.boolean 0) hp
  | string => exact .push rfl rfl rfl (.string "") hp
  | char => exact .push rfl rfl rfl (.char (Char.ofNat 0)) hp
  | array => exact absurd rfl ht

/-- The slots of the arrays of a declaration may hold zero. -/
def Setting.Clears (W : Setting) (S : Scopes) (type : TypeDenoter) (names : List String) : Prop :=
  ∀ {low high element l h size t name base}, type = .array low high element → DataType.ofScalar? element = some t →
    low.constant? = some l → high.constant? = some h → arraySize? l h = some size → name ∈ names →
    S.resolve? name = some ⟨base, .array l t⟩ →
    ∀ n, base ≤ n → n < base + size → n < maxGlobals ∧ W.fits n .zero

theorem Setting.Clears.tail {S : Scopes} {type : TypeDenoter} {name : String} {names : List String}
    (h : W.Clears S type (name :: names)) : W.Clears S type names :=
  fun htype ht hl hh hsize hname => h htype ht hl hh hsize (List.mem_cons_of_mem _ hname)

theorem Path.zeros {base size : Nat} (hsize : size ≤ maxGlobals)
    (h : ∀ n, base ≤ n → n < base + size → n < maxGlobals ∧ W.fits n .zero)
    (hp : Placed W.code targets p
      (emit (.pushn size :: (List.range' base size).map fun slot => .storeg (some slot))) q) :
    Path W J F p R Γ q (fun n => n ∈ List.range' base size ∨ R n) Γ := by
  obtain ⟨m, hpush, hstores⟩ := hp.uncons
  obtain ⟨hop, rfl⟩ := hpush.single
  obtain ⟨o, ho, hcode⟩ := hop (decide_eq_true hsize)
  cases ho
  refine .op hcode .zeros (.stores ?_ hstores)
  have hfits : ∀ n ∈ List.range' base size, n < maxGlobals ∧ W.fits n .zero := by
    intro n hn
    obtain ⟨hle, hlt⟩ := List.mem_range'_1.mp hn
    exact h n hle hlt
  generalize hslots : List.range' base size = slots at hfits
  have hlength : slots.length = size := by rw [← hslots, List.length_range']
  rw [← hlength]
  clear hslots hlength
  induction slots with
  | nil => exact .nil
  | cons slot slots ih =>
    obtain ⟨hslot, hfits⟩ := List.forall_mem_cons.mp hfits
    refine .cons ⟨hslot.1, ?_⟩ (ih hfits)
    rintro v rfl
    exact hslot.2

theorem Path.names {S : Scopes} {type : TypeDenoter} {names : List String} {lines : List Line}
    (hW : W.Admits targets S) (h : NamesCode S type names lines) (hzero : W.Clears S type names)
    (hp : Placed W.code targets p lines q) :
    Path W J F p R Γ q (fun n => n ∈ slotsOf lines ∨ R n) Γ := by
  induction h generalizing p R with
  | nil =>
    cases hp
    exact Path.refl.forget fun n hn => hn.resolve_left List.not_mem_nil
  | @scalar t name names slot rest ht hr _ ih =>
    obtain ⟨m, hfirst, hrest⟩ := placed_append.mp hp
    obtain ⟨m', hpush, hstore⟩ := hfirst.uncons
    have hne := DataType.ofScalar?_ne_array ht
    refine ((Path.initial hne hpush).trans ((Path.store (hW.slot hr hne) hstore).trans (ih hzero.tail hrest))).forget
      ?_
    have hslots : slotsOf (emit [t.initial, .storeg (some slot)]) = [slot] := by cases t <;> rfl
    intro n hn
    rw [slotsOf_append, hslots, List.mem_append, List.mem_singleton] at hn
    tauto
  | @array low high element l h size t name names base rest htype ht hl hh hsize hr _ ih =>
    obtain ⟨m, hfirst, hrest⟩ := placed_append.mp hp
    have hall := hzero htype ht hl hh hsize (List.mem_cons_self ..) hr
    refine ((Path.zeros (arraySize?_le hsize) hall hfirst).trans (ih hzero.tail hrest)).forget fun n hn => ?_
    have hslots : slotsOf (emit (.pushn size :: (List.range' base size).map fun slot => .storeg (some slot))) =
        List.range' base size := slotsOf_stores _
    rw [slotsOf_append, hslots, List.mem_append] at hn
    tauto

theorem Path.declarations {S : Scopes} {vs : List VarDecl} {lines : List Line} (hW : W.Admits targets S)
    (h : DeclarationsCode S vs lines) (hzero : ∀ v ∈ vs, W.Clears S v.type v.names)
    (hp : Placed W.code targets p lines q) :
    Path W J F p R Γ q (fun n => n ∈ slotsOf lines ∨ R n) Γ := by
  induction h generalizing p R with
  | nil =>
    cases hp
    exact Path.refl.forget fun n hn => hn.resolve_left List.not_mem_nil
  | cons hnames _ ih =>
    obtain ⟨m, hfirst, hrest⟩ := placed_append.mp hp
    obtain ⟨hv, hzero⟩ := List.forall_mem_cons.mp hzero
    refine ((Path.names hW hnames hv hfirst).trans (ih hzero hrest)).forget fun n hn => ?_
    rw [slotsOf_append, List.mem_append] at hn
    tauto

theorem ParameterSlots.fits {S : Scopes} {ps : List (String × DataType)} {slots : List Nat}
    (hW : W.Admits targets S) (h : ParameterSlots S ps slots) (hps : ∀ t ∈ ps.map Prod.snd, t ≠ .array) :
    List.Forall₂ (fun slot K => slot < maxGlobals ∧ ∀ v, K v → W.fits slot v) slots
      ((ps.map Prod.snd).map DataType.Holds) := by
  induction h with
  | nil => exact .nil
  | cons hr _ ih =>
    obtain ⟨ht, hps⟩ := List.forall_mem_cons.mp hps
    have hhas := hW.slot hr ht
    exact .cons ⟨hhas.lt, fun v => (hhas.fits v).mpr⟩ (ih hps)

/-- Arguments are stored in the slots of parameters; the last one is on top. -/
theorem Path.parameters {S : Scopes} {ps : List (String × DataType)} {slots : List Nat}
    (hW : W.Admits targets S) (h : ParameterSlots S ps slots) (hps : ∀ t ∈ ps.map Prod.snd, t ≠ .array)
    (hp : Placed W.code targets p (emit (slots.reverse.map fun slot => .storeg (some slot))) q) :
    Path W J F p R ((ps.map Prod.snd).reverse.map DataType.Holds) q (fun n => n ∈ slots ∨ R n) [] := by
  have hfits := List.rel_reverse (h.fits hW hps)
  rw [← List.map_reverse] at hfits
  have hpath : Path W J F p R (_ ++ []) q _ [] := .stores hfits hp
  rw [List.append_nil] at hpath
  exact hpath.forget fun n hn => hn.imp List.mem_reverse.mpr id

end

/-! ## texts -/

/-- The slots that have to be written before they are read: those of the texts in sight, and those that
functions rely on. -/
def Setting.Texts (W : Setting) (S : Scopes) (n : Nat) : Prop :=
  W.globals n ∨ ∃ id v, S.resolve? id = some v ∧ v.type = .string ∧ v.slot = n

theorem Setting.Admits.supplies {W : Setting} {targets : String → Option Nat} {S : Scopes}
    (hW : W.Admits targets S) (lines : List Line) : W.Supplies (W.Texts S) S lines := by
  refine ⟨fun {id v} hr hv _ => ?_, fun _ n hn => .inl hn⟩
  by_cases hstring : v.type = .string
  · exact .inl (.inr ⟨id, v, hr, hstring, rfl⟩)
  · exact .inr (((hW.slot hr hv).fits _).mpr (DataType.holds_zero hstring hv))

section
variable {W : Setting} {targets : String → Option Nat} {L : Layout}

/-- What is asked of a block: its names have their types, and declarations write the texts in sight. -/
structure Setting.Block (W : Setting) (targets : String → Option Nat) (x : Context) (vs : List VarDecl)
    (before : List Nat) (declarations : List Line) : Prop where
  admits : W.Admits targets x.scopes
  clears : ∀ v ∈ vs, W.Clears x.scopes v.type v.names
  result : ∀ {a}, x.activation = some a → W.Has a.slot a.result
  written : ∀ id v, x.scopes.resolve? id = some v → v.type = .string →
    W.globals v.slot ∨ v.slot ∈ before ∨ v.slot ∈ slotsOf declarations

theorem Setting.Block.hosts {x : Context} {vs : List VarDecl} {before : List Nat} {declarations : List Line}
    (h : W.Block targets x vs before declarations) : W.Hosts targets x (W.Texts x.scopes) :=
  ⟨h.admits, h.result, h.admits.supplies⟩

/-- Where the labels of code stand. -/
def LabelAt (targets : String → Option Nat) (lines : List Line) (pos : Nat) : Prop :=
  ∃ l ∈ labelsOf lines, targets l = some pos

theorem labelsIn_labelAt (lines : List Line) : LabelsIn targets (LabelAt targets lines) lines :=
  fun l hl _ hpos => ⟨l, hl, hpos⟩

/-- **The code of a function keeps to types.** -/
theorem RoutineCode.isFunction {r : Routine} {k k' : Counters} {lines : List Line} {p q : Nat}
    (h : RoutineCode L k r lines k') (hp : Placed W.code targets p lines q)
    (hset : stmtsSetFree r.block.statements = true) (hps : ∀ t ∈ r.parameters.map Prod.snd, t ≠ .array)
    (hresult : r.activation.result.Holds .zero)
    (hW : ∀ {slots declarations}, ParameterSlots (L.contextOf r).scopes r.parameters slots →
      DeclarationsCode (L.contextOf r).scopes r.block.declarations declarations →
      W.Block targets (L.contextOf r) r.block.declarations slots declarations) :
    ∃ P R', W.IsFunction P r.activation.result ∧ Path W P.labels P.ready p W.globals
      ((r.parameters.map Prod.snd).reverse.map DataType.Holds) P.last R' P.result := by
  cases h with
  | @mk slots declarations statements _ hparameters hdeclarations hstatements =>
    have hblock := hW hparameters hdeclarations
    obtain ⟨m₄, hp, hend⟩ := placed_append.mp hp
    obtain ⟨m₃, hp, hstmts⟩ := placed_append.mp hp
    obtain ⟨m₂, hp, hdecls⟩ := placed_append.mp hp
    obtain ⟨m₁, hlabel, hstores⟩ := placed_append.mp hp
    obtain ⟨_, rfl⟩ := hlabel.label
    obtain ⟨m₅, hload, hret⟩ := hend.uncons
    obtain ⟨hreturn, rfl⟩ := Placed.basic hret
    let P : Part := ⟨LabelAt targets statements, W.Texts (L.contextOf r).scopes, m₅, [r.activation.result.Holds]⟩
    have hflows := stmts_flow (J := P.labels) hblock.hosts _ hset hstatements hstmts (labelsIn_labelAt statements)
    have hhas : W.Has r.activation.slot r.activation.result := hblock.result rfl
    have hout : Path W P.labels P.ready m₄ P.ready [] P.last P.ready P.result :=
      .load hhas (.inr ((hhas.fits _).mpr hresult)) hload
    have hentry : Path W P.labels P.ready m₁ W.globals ((r.parameters.map Prod.snd).reverse.map DataType.Holds) m₃
        P.ready [] := by
      refine ((Path.parameters hblock.admits hparameters hps hstores).trans
        (.declarations hblock.admits hdeclarations hblock.clears hdecls)).forget ?_
      rintro n (hn | ⟨id, v, hr, hv, rfl⟩)
      · exact .inr (.inr hn)
      · have hwritten := hblock.written id v hr hv
        tauto
    refine ⟨P, P.ready, ⟨?_, rfl, hreturn⟩, hentry.trans (hflows.pass.trans hout)⟩
    rintro pos ⟨l, hl, hpos⟩
    exact ⟨P.ready, (hflows.labels l hl pos hpos).trans hout⟩

/-- **The code of a program keeps to types** up to the instruction that stops the run. -/
theorem ProgramCode.mainPart {prog : Program} {lines : List Line} {q : Nat} (h : ProgramCode L prog lines)
    (hp : Placed W.code targets 0 lines q) (hset : stmtsSetFree prog.block.statements = true)
    (hW : ∀ {declarations}, DeclarationsCode L.scopes prog.block.declarations declarations →
      W.Block targets L.context prog.block.declarations [] declarations ∧
        ∀ n, W.globals n → n ∈ slotsOf declarations) :
    ∃ (P : Part) (R' : Nat → Prop), P.Sound W ∧ P.result = [] ∧ W.code[P.last]? = some (.ok (.basic .stop)) ∧
      Path W P.labels P.ready 0 (fun _ => False) [] P.last R' P.result := by
  cases h with
  | @mk declarations functions statements _ _ hdeclarations hroutines hstatements =>
    obtain ⟨hblock, hglobals⟩ := hW hdeclarations
    obtain ⟨m₆, hp, hstop⟩ := placed_append.mp hp
    obtain ⟨m₅, hp, hstmts⟩ := placed_append.mp hp
    obtain ⟨m₄, hp, hstart⟩ := placed_append.mp hp
    obtain ⟨m₃, hp, hmain⟩ := placed_append.mp hp
    obtain ⟨m₂, hp, hfunctions⟩ := placed_append.mp hp
    obtain ⟨m₁, hdecls, hjump⟩ := placed_append.mp hp
    obtain ⟨hmain, rfl⟩ := hmain.label
    obtain ⟨hlast, rfl⟩ := hstop.basic
    obtain ⟨hfirst, rfl⟩ := hstart.basic
    let P : Part := ⟨LabelAt targets ([.label "main"] ++ statements), W.Texts L.context.scopes, m₆, []⟩
    have hflows := stmts_flow (J := P.labels) hblock.hosts _ hset hstatements hstmts
      (labelsIn_labelAt ([.label "main"] ++ statements)).right
    have hbegin : Path W P.labels P.ready m₄ P.ready [] P.last P.ready P.result :=
      .op hfirst .start hflows.pass
    refine ⟨P, P.ready, ?_, rfl, hlast, ?_⟩
    · rintro pos ⟨l, hl, hpos⟩
      rcases List.mem_cons.mp hl with rfl | hl
      · cases hmain.symm.trans hpos
        exact ⟨P.ready, hbegin⟩
      · exact ⟨P.ready, hflows.labels l hl pos hpos⟩
    · obtain ⟨hop, rfl⟩ := hjump.single
      obtain ⟨o, ho, hcode⟩ := hop rfl
      rw [Op.resolve?, hmain] at ho
      cases ho
      refine (Path.declarations hblock.admits hdeclarations hblock.clears hdecls).trans
        (.jump hcode ⟨"main", List.mem_cons_self .., hmain⟩ ?_)
      rintro n (hn | ⟨id, v, hr, hv, rfl⟩)
      · exact .inl (hglobals n hn)
      · rcases hblock.written id v hr hv with hn | hn | hn
        · exact .inl (hglobals _ hn)
        · cases hn
        · exact .inl hn

end

end PascalStack
