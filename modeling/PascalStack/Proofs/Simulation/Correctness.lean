import PascalStack.Proofs.Grammar.Names
import PascalStack.Proofs.Machine.Loading
import PascalStack.Proofs.Machine.Runs
import PascalStack.Proofs.Simulation.Programs

/-!
# Compiled programs behave like their trees

* `compile_loads`        compiled code can be loaded, and its run follows the evaluation of the tree;
* `compile_correct`      the run ends, fails or goes on for ever as the evaluation does;
* `stack_discipline`     both stacks are used as they should be.
-/

namespace PascalStack

/-- A name that can be the label of a function. -/
structure IsFunctionLabel (name : String) : Prop where
  spelled : IsName name
  fresh : ¬ IsStatementLabel name

theorem isBlank_of_isWordPart {c : Char} (h : isWordPart c = true) : Text.isBlank c = false := by
  have hc : c.toNat = 95 ∨ 48 ≤ c.toNat ∧ c.toNat ≤ 57 ∨ 65 ≤ c.toNat ∧ c.toNat ≤ 90 ∨
      97 ≤ c.toNat ∧ c.toNat ≤ 122 := by
    have hpart : isWordPart c = (decide (65 ≤ c.val ∧ c.val ≤ 90) ||
        decide (97 ≤ c.val) && decide (c.val ≤ 122) || decide (48 ≤ c.val) && decide (c.val ≤ 57) ||
        decide (c = '_')) := rfl
    simp only [hpart, Bool.or_eq_true, Bool.and_eq_true, decide_eq_true_eq, UInt32.le_iff_toNat_le] at h
    rcases h with ((h | h) | h) | rfl
    · exact .inr (.inr (.inl h))
    · exact .inr (.inr (.inr h))
    · exact .inr (.inl h)
    · exact .inl rfl
  unfold Text.isBlank
  simp only [Bool.or_eq_false_iff, Bool.and_eq_false_iff, decide_eq_false_iff_not]
  omega

theorem IsName.isWord {name : String} (h : IsName name) : IsWord name := by
  refine ⟨h.nonempty, fun c hc => ⟨isBlank_of_isWordPart (h.parts c hc), ?_⟩⟩
  rintro rfl
  exact absurd (h.parts _ hc) (by decide)

theorem IsStatementLabel.isWord {name : String} (h : IsStatementLabel name) : IsWord name := by
  obtain ⟨kind, i, rfl⟩ := h
  have htext : kind.text.toList.isEmpty = false ∧ kind.text.toList.all isWordPart = true := by
    cases kind <;> decide
  refine IsName.isWord ⟨?_, fun c hc => ?_⟩
  · rw [LabelKind.label, String.toList_append]
    exact List.append_ne_nil_of_left_ne_nil (List.isEmpty_eq_false_iff.mp htext.1) _
  · rw [LabelKind.label, String.toList_append] at hc
    rcases List.mem_append.mp hc with hc | hc
    · exact List.all_eq_true.mp htext.2 c hc
    · unfold isWordPart Char.isAlphanum
      rw [isDigit_of_mem_naturalText hc, Bool.or_true, Bool.true_or]

theorem compileTree_eq_ok {p : Program} {code : List Line} (h : compileTree p = .ok code) :
    ∃ d, p.compile .initial = .ok code d := by
  unfold compileTree at h
  split at h
  · rename_i code' d hc
    cases h
    exact ⟨d, hc⟩
  · cases h

/-- The faults of code that does not keep to the stacks, or that cannot be read. -/
def Fault.isIllFormed : Fault → Bool
  | .stackUnderflow _ | .callStackUnderflow | .unknownLabel _ | .unknownInstruction _ _
  | .malformedOperand _ _ => true
  | _ => false

theorem Fault.not_isIllFormed {f : Fault} (h : f.isRegular = true) : f.isIllFormed = false := by
  cases f <;> first | rfl | cases h

/-- The labels of a program are words, so its lines are read back from their texts. -/
theorem ProgramCode.readable {P : String → Prop} {L : Layout} {p : Program} {code : List Line}
    (hsound : L.Sound P) (hP : ∀ name, P name → IsName name) (h : ProgramCode L p code) :
    ∀ line ∈ code, line.Readable := by
  obtain ⟨k, own, hfresh, hperm, htargets⟩ := h.labels hsound
  have hword : ∀ l ∈ labelsOf code, IsWord l := by
    intro l hl
    rcases List.mem_append.mp (hperm.mem_iff.mp hl) with hl | hl
    · rcases List.mem_cons.mp hl with rfl | hl
      · exact IsName.isWord ⟨by decide, List.all_eq_true.mp (by decide)⟩
      · obtain ⟨r, hr, rfl⟩ := List.mem_map.mp hl
        exact (hP _ (hsound.labels r hr).1).isWord
    · exact (hfresh.isStatementLabel hl).isWord
  intro line hline
  exact ⟨fun l hl => hword l (List.mem_filterMap.mpr ⟨line, hline, hl⟩),
    fun t ht => hword t (htargets t (List.mem_filterMap.mpr ⟨line, hline, ht⟩))⟩

theorem ProgramCode.ne_nil {L : Layout} {p : Program} {code : List Line} (h : ProgramCode L p code) :
    code ≠ [] := by
  cases h
  simp

/-- The code of a program can be loaded, and all its lines are then in their places. -/
theorem ProgramCode.loads {L : Layout} {p : Program} {code : List Line}
    (hsound : L.Sound IsFunctionLabel) (h : ProgramCode L p code) :
    ∃ img q, load (codeText code) = .ok img ∧ Placed img.code img.target? 0 code q := by
  obtain ⟨hnodup, htargets⟩ := program_labels hsound (fun _ hname => hname.fresh) h
  exact load_codeText h.ne_nil (h.readable hsound fun _ hname => hname.spelled) hnodup htargets

theorem Program.layout_setFree {p : Program} {L : Layout} (hlayout : p.layout? = some L)
    (hset : p.setFree = true) : L.SetFree := by
  intro r hr
  obtain ⟨f, hf, hblock⟩ := Program.mem_routines hlayout hr
  exact Block.statements_setFree (functionsSetFree_block (p.block.functions_setFree hset) f hf hblock)

section
variable {source : String} {code : List Line} {p : Program}

/-- **Compiled code can be loaded, and its run follows the evaluation of the tree.** -/
theorem compile_loads (hcompile : compile source = .ok code) (htree : (report source).accepted = .ok p)
    (hset : p.setFree = true) (hnames : ∀ f ∈ p.block.functions, ¬ IsStatementLabel f.name) :
    ∃ L img log, p.layout? = some L ∧ L.Sound IsFunctionLabel ∧ p.Regions L code log ∧ ProgramCode L p code ∧
      load (codeText code) = .ok img ∧ ∀ w n, ∃ last, img.code[last]? = some (.ok (.basic .stop)) ∧
        Computes img.code w n 0 last [] (p.exec w L n) fun _ => [] := by
  obtain ⟨q, hq, hcode⟩ := compile_eq_ok_iff.mp hcompile
  rw [htree] at hq
  cases hq
  obtain ⟨d, hd⟩ := compileTree_eq_ok hcode
  obtain ⟨L, hlayout, hsound, ⟨log, hregions⟩, hprogram⟩ := program_translates (P := IsFunctionLabel)
    (fun f hf => ⟨functions_named htree f hf, hnames f hf⟩) hd
  obtain ⟨img, q, hload, hplaced⟩ := hprogram.loads hsound
  exact ⟨L, img, log, hlayout, hsound, hregions, hprogram, hload, fun w n =>
    program_computes hsound (Program.layout_setFree hlayout hset) (Block.statements_setFree hset)
      hregions.layout_slotsFit hprogram hplaced⟩

/-- **Compiler correctness.** -/
theorem compile_correct (hcompile : compile source = .ok code) (htree : (report source).accepted = .ok p)
    (hset : p.setFree = true) (hnames : ∀ f ∈ p.block.functions, ¬ IsStatementLabel f.name) :
    ∃ img, load (codeText code) = .ok img ∧ ∀ input,
      (∀ m, p.Ends input m ↔ ∃ t, img.Ends input t ∧ t.memory = m) ∧
      (∀ f m, p.Faults input f m ↔ ∃ t, img.Fails input f t ∧ t.memory = m) ∧
      (p.Diverges input ↔ img.RunsForever input) := by
  obtain ⟨L, img, _, hlayout, _, _, _, hload, hrun⟩ := compile_loads hcompile htree hset hnames
  refine ⟨img, hload, fun input => ⟨fun m => ⟨?_, ?_⟩, fun f m => ⟨?_, ?_⟩, ?_, ?_⟩⟩
  · rintro ⟨L', n, hL', hx⟩
    cases hlayout.symm.trans hL'
    obtain ⟨last, hlast, hc⟩ := hrun .off n
    obtain ⟨k, t, -, hend, hm, -⟩ := hc.run_of_ok hlast hx
    exact ⟨t, ⟨k + 1, hend⟩, hm⟩
  · rintro ⟨t, ⟨k, hk⟩, rfl⟩
    obtain ⟨last, hlast, hc⟩ := hrun .off (k + 1)
    rcases hc.run_cases hlast (Nat.lt_succ_self k) input with ⟨q, u, hu, -⟩ | ⟨u, hu, hx, -⟩ |
      ⟨f, u, hu, -⟩ | ⟨e, u, -, hu⟩
    · rw [hk] at hu; cases hu
    · rw [hk] at hu; cases hu; exact ⟨L, k + 1, hlayout, hx⟩
    · rw [hk] at hu; cases hu
    · cases hu
  · rintro ⟨L', n, hL', hx⟩
    cases hlayout.symm.trans hL'
    obtain ⟨last, hlast, hc⟩ := hrun .off n
    obtain ⟨-, k, q, t, u, -, -, -, hend, hm⟩ := hc.run_of_fault hx
    exact ⟨u, ⟨k + 1, hend⟩, hm⟩
  · rintro ⟨t, ⟨k, hk⟩, rfl⟩
    obtain ⟨last, hlast, hc⟩ := hrun .off (k + 1)
    rcases hc.run_cases hlast (Nat.lt_succ_self k) input with ⟨q, u, hu, -⟩ | ⟨u, hu, -⟩ |
      ⟨f, u, hu, -, hx⟩ | ⟨e, u, -, hu⟩
    · rw [hk] at hu; cases hu
    · rw [hk] at hu; cases hu
    · rw [hk] at hu; cases hu; exact ⟨L, k + 1, hlayout, hx⟩
    · cases hu
  · rintro ⟨L', hL', hx⟩ k
    cases hlayout.symm.trans hL'
    obtain ⟨last, hlast, hc⟩ := hrun .off (k + 1)
    obtain ⟨m, hm⟩ := hx (k + 1)
    rcases hc.run_cases hlast (Nat.lt_succ_self k) input with ⟨q, u, hu, -⟩ | ⟨u, -, hu, -⟩ |
      ⟨f, u, -, -, hu⟩ | ⟨e, u, -, hu⟩
    · exact ⟨q, u, hu⟩
    · rw [hm] at hu; cases hu
    · rw [hm] at hu; cases hu
    · cases hu
  · intro hforever
    refine ⟨L, hlayout, fun n => ?_⟩
    obtain ⟨last, hlast, hc⟩ := hrun .off n
    cases hx : p.exec .off L n (.initial input) with
    | ok u m =>
      obtain ⟨k, t, -, hend, -⟩ := hc.run_of_ok hlast hx
      obtain ⟨q, u, hu⟩ := hforever (k + 1)
      rw [hend] at hu
      cases hu
    | error e m =>
      cases e with
      | fault f =>
        obtain ⟨-, k, q, t, u, -, -, -, hend, -⟩ := hc.run_of_fault hx
        obtain ⟨q, u, hu⟩ := hforever (k + 1)
        rw [hend] at hu
        cases hu
      | unfinished => exact ⟨m, rfl⟩
      | stopped e => cases hc.stopped_only hx

/-- A program with a function and an array. -/
def sampleSource : String :=
  "program p; function f(n: integer): integer; begin f := n end; var a: array [1..3] of integer; " ++
    "begin a[1] := f(2); writeln(a[1]) end."

theorem sampleSource_compiles : ∃ code p, compile sampleSource = .ok code ∧
    (report sampleSource).accepted = .ok p ∧ p.setFree = true ∧
    ∀ f ∈ p.block.functions, ¬ IsStatementLabel f.name := by
  have hrun : (match (report sampleSource).accepted with
      | .ok p => (compileTree p).toOption.isSome && p.setFree && p.block.functions.all (·.name = "f")
      | .error _ => false) = true := by decide +kernel
  cases htree : (report sampleSource).accepted with
  | error e =>
    rw [htree] at hrun
    cases hrun
  | ok p =>
    simp only [htree, Bool.and_eq_true, List.all_eq_true, decide_eq_true_eq] at hrun
    obtain ⟨⟨hcode, hset⟩, hnames⟩ := hrun
    cases hc : compileTree p with
    | error e =>
      rw [hc] at hcode
      cases hcode
    | ok code =>
      refine ⟨code, p, compile_eq_ok_iff.mpr ⟨p, htree, hc⟩, rfl, hset, fun f hf => ?_⟩
      rw [hnames f hf]
      exact not_isStatementLabel fun kind => by cases kind <;> decide

theorem compile_correct_sampleSource : ∃ code p img, compile sampleSource = .ok code ∧
    (report sampleSource).accepted = .ok p ∧ p.setFree = true ∧
    (∀ f ∈ p.block.functions, ¬ IsStatementLabel f.name) ∧
    load (codeText code) = .ok img ∧ ∀ input,
      (∀ m, p.Ends input m ↔ ∃ t, img.Ends input t ∧ t.memory = m) ∧
      (∀ f m, p.Faults input f m ↔ ∃ t, img.Fails input f t ∧ t.memory = m) ∧
      (p.Diverges input ↔ img.RunsForever input) := by
  obtain ⟨code, p, hcompile, htree, hset, hnames⟩ := sampleSource_compiles
  obtain ⟨img, hload, hrun⟩ := compile_correct hcompile htree hset hnames
  exact ⟨code, p, img, hcompile, htree, hset, hnames, hload, hrun⟩

/-- **Stack discipline.** -/
theorem stack_discipline (hcompile : compile source = .ok code) (htree : (report source).accepted = .ok p)
    (hset : p.setFree = true) (hnames : ∀ f ∈ p.block.functions, ¬ IsStatementLabel f.name) :
    ∃ img, load (codeText code) = .ok img ∧ ∀ input steps status t,
      runFrom img.code steps 0 (.initial input) = (status, t) →
      (∀ f, status = .failed f → f.isIllFormed = false) ∧
      (∀ q, status = .suspended q → img.code[q]? = some (.ok (.basic .call)) →
        ∃ a rest, t.stack = .address a :: rest ∧ 0 < q ∧ img.code[q - 1]? = some (.ok (.pusha a))) ∧
      (status = .finished → t.stack = [] ∧ t.calls = []) := by
  obtain ⟨L, img, _, _, _, _, _, hload, hrun⟩ := compile_loads hcompile htree hset hnames
  refine ⟨img, hload, fun input steps status t hst => ?_⟩
  obtain ⟨last, hlast, hc⟩ := hrun .off (steps + 1)
  rcases hc.run_cases hlast (Nat.lt_succ_self steps) input with ⟨q, u, hu, hvisit⟩ |
    ⟨u, hu, -, hstack, hcalls⟩ | ⟨f, u, hu, hregular, -⟩ | ⟨e, u, -, hu⟩
  · rw [hst] at hu
    cases hu
    exact ⟨nofun, fun q' hq => by cases hq; exact hvisit.call, nofun⟩
  · rw [hst] at hu
    cases hu
    exact ⟨nofun, nofun, fun _ => ⟨hstack, hcalls⟩⟩
  · rw [hst] at hu
    cases hu
    exact ⟨fun f' hf => by cases hf; exact Fault.not_isIllFormed hregular, nofun, nofun⟩
  · cases hu

theorem stack_discipline_sampleSource : ∃ code p img, compile sampleSource = .ok code ∧
    (report sampleSource).accepted = .ok p ∧ p.setFree = true ∧
    (∀ f ∈ p.block.functions, ¬ IsStatementLabel f.name) ∧
    load (codeText code) = .ok img ∧ ∀ input steps status t,
      runFrom img.code steps 0 (.initial input) = (status, t) →
      (∀ f, status = .failed f → f.isIllFormed = false) ∧
      (∀ q, status = .suspended q → img.code[q]? = some (.ok (.basic .call)) →
        ∃ a rest, t.stack = .address a :: rest ∧ 0 < q ∧ img.code[q - 1]? = some (.ok (.pusha a))) ∧
      (status = .finished → t.stack = [] ∧ t.calls = []) := by
  obtain ⟨code, p, hcompile, htree, hset, hnames⟩ := sampleSource_compiles
  obtain ⟨img, hload, hrun⟩ := stack_discipline hcompile htree hset hnames
  exact ⟨code, p, img, hcompile, htree, hset, hnames, hload, hrun⟩

end

end PascalStack
