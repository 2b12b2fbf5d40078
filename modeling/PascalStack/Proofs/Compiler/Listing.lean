import Mathlib.Data.List.TakeWhile
import PascalStack.Proofs.Simulation.Correctness

/-!
# The listing of compiled code

What a loader finds in the text of compiled code, whatever the names of its functions.

* `Line.written?`            an instruction as it is written: a word, the rest of the line and its number;
* `DefinedAt`                the position of the last definition of a label, `target?_imageOf_iff`;
* `loaded_as_written`        compiled code can be loaded, and the image is what is written;
* `labels_distinct_iff`      labels are distinct unless a function is named like a statement of the program.
-/

namespace PascalStack

/-! ## instructions as they are written -/

def beforeSpace (text : String) : String := String.ofList (text.toList.takeWhile (· ≠ ' '))

def afterSpace? (text : String) : Option String :=
  match text.toList.dropWhile (· ≠ ' ') with
  | [] => none
  | _ :: rest => some (String.ofList rest)

/-- The parts of a line that is no label, with its number. -/
def Line.written? (line : Line) (number : Nat) : Option (String × Option String × Nat) :=
  match line.label? with
  | some _ => none
  | none => some (beforeSpace line.text, afterSpace? line.text, number)

theorem Op.space_not_mem_name (o : Op String) : ∀ c ∈ o.name.toList, c ≠ ' ' := by
  rintro c hc rfl
  have hblank := (o.opcode.name_letters.2 _ hc).2.1
  exact absurd hblank (by decide)

/-- The text of an instruction is its name and, after a space, its operand. -/
theorem Op.written (o : Op String) : beforeSpace o.text = o.name ∧ afterSpace? o.text = o.operand := by
  have hname : ∀ c ∈ o.name.toList, decide (c ≠ ' ') = true := fun c hc =>
    decide_eq_true (o.space_not_mem_name c hc)
  unfold beforeSpace afterSpace? Op.text
  cases o.operand with
  | none =>
    simp only
    rw [List.takeWhile_eq_self_iff.mpr hname, List.dropWhile_eq_nil_iff.mpr hname, String.ofList_toList]
    exact ⟨rfl, rfl⟩
  | some text =>
    have htext : (o.name ++ " " ++ text).toList = o.name.toList ++ ' ' :: text.toList := by
      simp [String.toList_append]
    have hstop : List.takeWhile (fun c => decide (c ≠ ' ')) (' ' :: text.toList) = [] := rfl
    have hrest : List.dropWhile (fun c => decide (c ≠ ' ')) (' ' :: text.toList) = ' ' :: text.toList := rfl
    simp only [htext]
    rw [List.takeWhile_append_of_pos hname, List.dropWhile_append_of_pos hname, hstop, hrest]
    simp only [List.append_nil, String.ofList_toList, and_self]

theorem Line.written?_op (o : Op String) (number : Nat) :
    (Line.op o).written? number = some (o.name, o.operand, number) := by
  show some (beforeSpace o.text, afterSpace? o.text, number) = _
  rw [o.written.1, o.written.2]

/-- The instructions of an image are those of the code, in order. -/
theorem listing_written (number : Nat) (code : List Line) :
    (listing number code).map (fun i => (i.name, i.operand, i.line)) =
      (code.zipIdx number).filterMap fun e => e.1.written? e.2 := by
  induction code generalizing number with
  | nil => rfl
  | cons line rest ih =>
    rw [List.zipIdx_cons]
    cases line with
    | label name => exact ih (number + 1)
    | op o =>
      rw [List.filterMap_cons]
      simp only [Line.written?_op]
      rw [← ih (number + 1)]
      rfl

/-! ## labels and their positions -/

def instructionCount (code : List Line) : Nat := (code.filter fun line => line.label?.isNone).length

theorem positions_append (p : Nat) (a b : List Line) :
    positions p (a ++ b) = positions p a ++ positions (p + instructionCount a) b := by
  induction a generalizing p with
  | nil => rfl
  | cons line rest ih =>
    cases line with
    | label name =>
      rw [List.cons_append, positions, positions, ih]
      rfl
    | op o =>
      have hcount : instructionCount (.op o :: rest) = instructionCount rest + 1 := rfl
      rw [List.cons_append, positions, positions, ih, hcount, Nat.add_assoc, Nat.add_comm 1]

/-- The last definition of a label has `n` instructions before it. -/
def DefinedAt (code : List Line) (name : String) (n : Nat) : Prop :=
  ∃ before after, code = before ++ .label name :: after ∧ name ∉ labelsOf after ∧
    instructionCount before = n

section
variable {code : List Line} {name : String} {n : Nat}

theorem not_definedAt_nil : ¬ DefinedAt [] name n := by
  rintro ⟨before, after, h, -, -⟩
  simp at h

/-- A line at the end that does not define the label changes nothing. -/
theorem definedAt_concat_of_ne {line : Line} (h : line.label? ≠ some name) :
    DefinedAt (code ++ [line]) name n ↔ DefinedAt code name n := by
  have hline : name ∉ labelsOf [line] := by
    intro hmem
    obtain ⟨l, hl, hname⟩ := List.mem_filterMap.mp hmem
    rw [List.mem_singleton.mp hl] at hname
    exact h hname
  constructor
  · rintro ⟨before, after, heq, hlast, hn⟩
    rcases List.eq_nil_or_concat' after with rfl | ⟨after, line', rfl⟩
    · have hsame := (List.append_inj' heq rfl).2
      cases hsame
      exact absurd rfl h
    · rw [← List.cons_append, ← List.append_assoc] at heq
      rw [labelsOf_append, List.mem_append, not_or] at hlast
      exact ⟨before, after, (List.append_inj' heq rfl).1, hlast.1, hn⟩
  · rintro ⟨before, after, rfl, hlast, hn⟩
    refine ⟨before, after ++ [line], by rw [List.append_assoc, List.cons_append], ?_, hn⟩
    rw [labelsOf_append, List.mem_append, not_or]
    exact ⟨hlast, hline⟩

theorem definedAt_concat_label : DefinedAt (code ++ [.label name]) name n ↔ instructionCount code = n := by
  constructor
  · rintro ⟨before, after, heq, hlast, hn⟩
    rcases List.eq_nil_or_concat' after with rfl | ⟨after, line, rfl⟩
    · rw [(List.append_inj' heq rfl).1]
      exact hn
    · rw [← List.cons_append, ← List.append_assoc] at heq
      cases (List.append_inj' heq rfl).2
      rw [labelsOf_append, List.mem_append, not_or] at hlast
      exact absurd (List.mem_singleton_self name) hlast.2
  · exact fun hn => ⟨code, [], rfl, nofun, hn⟩

end

/-- A label stands for the position of its last definition. -/
theorem target?_imageOf_iff (code : List Line) (name : String) (n : Nat) :
    (imageOf code).target? name = some n ↔ DefinedAt code name n := by
  show (positions 0 code).reverse.lookup name = some n ↔ _
  induction code using List.reverseRecOn with
  | nil => exact ⟨nofun, fun h => absurd h not_definedAt_nil⟩
  | append_singleton code line ih =>
    rw [positions_append, Nat.zero_add, List.reverse_append]
    cases line with
    | op o =>
      have hne : (Line.op o).label? ≠ some name := nofun
      rw [definedAt_concat_of_ne hne]
      exact ih
    | label other =>
      show ((other, instructionCount code) :: (positions 0 code).reverse).lookup name = some n ↔ _
      by_cases h : name = other
      · subst h
        rw [List.lookup_cons_self, definedAt_concat_label, Option.some.injEq]
      · have hne : (Line.label other).label? ≠ some name := fun he => h (Option.some.inj he).symm
        rw [definedAt_concat_of_ne hne, List.lookup_cons, beq_false_of_ne h]
        exact ih

/-! ## compiled code -/

/-- The instructions that name a label, as they are written. -/
def jumpNames : List String := ["jump", "jz", "pusha"]

theorem target?_of_jumpName {o : Op String} (h : o.name ∈ jumpNames) :
    ∃ t, o.target? = some t ∧ o.operand = some t := by
  have hopcode : Opcode.ofName? o.name = some o.opcode := Opcode.ofName?_name o.opcode
  simp only [jumpNames, List.mem_cons, List.not_mem_nil, or_false] at h
  have hkind : o.opcode = .jump ∨ o.opcode = .jz ∨ o.opcode = .pusha := by
    rcases h with h | h | h
    · rw [h] at hopcode
      exact .inl (Option.some.inj hopcode.symm)
    · rw [h] at hopcode
      exact .inr (.inl (Option.some.inj hopcode.symm))
    · rw [h] at hopcode
      exact .inr (.inr (Option.some.inj hopcode.symm))
  cases o with
  | jump t | jz t | pusha t => exact ⟨t, rfl, rfl⟩
  | _ => exact absurd hkind (by simp [Op.opcode])

section
variable {source : String} {code : List Line}

/-- Compiled code is the code of a tree whose functions have proper names. -/
theorem compile_code (h : compile source = .ok code) :
    ∃ p L log, (report source).accepted = .ok p ∧ p.layout? = some L ∧ L.Sound IsName ∧
      p.Regions L code log ∧ ProgramCode L p code := by
  obtain ⟨p, htree, hcode⟩ := compile_eq_ok_iff.mp h
  obtain ⟨d, hd⟩ := compileTree_eq_ok hcode
  obtain ⟨L, hlayout, hsound, ⟨log, hregions⟩, hprogram⟩ :=
    program_translates (P := IsName) (functions_named htree) hd
  exact ⟨p, L, log, htree, hlayout, hsound, hregions, hprogram⟩

/-- **Compiled code can be loaded, and is loaded as it is written.** -/
theorem loaded_as_written (h : compile source = .ok code) :
    ∃ img, load (codeText code) = .ok img ∧
      img.instructions.toList.map (fun i => (i.name, i.operand, i.line)) =
        (code.zipIdx 1).filterMap (fun e => e.1.written? e.2) ∧
      (∀ name n, img.target? name = some n ↔ DefinedAt code name n) ∧
      ∀ line ∈ code, line.label? = none → beforeSpace line.text ∈ jumpNames →
        ∃ name, afterSpace? line.text = some name ∧ .label name ∈ code := by
  obtain ⟨p, L, log, -, -, hsound, -, hprogram⟩ := compile_code h
  obtain ⟨k, own, -, -, htargets⟩ := hprogram.labels hsound
  have hread := hprogram.readable hsound fun _ hname => hname
  refine ⟨imageOf code, load_eq_imageOf hprogram.ne_nil hread htargets, listing_written 1 code,
    target?_imageOf_iff code, fun line hline hop hjump => ?_⟩
  cases line with
  | label name => cases hop
  | op o =>
    have hjump : beforeSpace o.text ∈ jumpNames := hjump
    rw [o.written.1] at hjump
    obtain ⟨t, ht, hoperand⟩ := target?_of_jumpName hjump
    obtain ⟨line, hmem, hlabel⟩ := List.mem_filterMap.mp (htargets t (mem_targetsOf hline ht))
    refine ⟨t, o.written.2.trans hoperand, ?_⟩
    cases line with
    | label name =>
      cases hlabel
      exact hmem
    | op _ => cases hlabel

/-- A function that is called before its body and inside it. -/
def forwardSource : String :=
  "program p; function f: integer; forward; function g: integer; begin g := f end; " ++
    "function f; begin if 1 = 2 then f := f end; begin writeln(g) end."

theorem forwardSource_compiles : ∃ code, compile forwardSource = .ok code := by
  have hrun : (compile forwardSource).toOption.isSome = true := by decide +kernel
  cases h : compile forwardSource with
  | ok code => exact ⟨code, rfl⟩
  | error e =>
    rw [h] at hrun
    cases hrun

theorem loaded_as_written_forwardSource : ∃ code img, compile forwardSource = .ok code ∧
    load (codeText code) = .ok img ∧
    img.instructions.toList.map (fun i => (i.name, i.operand, i.line)) =
      (code.zipIdx 1).filterMap (fun e => e.1.written? e.2) ∧
    (∀ name n, img.target? name = some n ↔ DefinedAt code name n) ∧
    ∀ line ∈ code, line.label? = none → beforeSpace line.text ∈ jumpNames →
      ∃ name, afterSpace? line.text = some name ∧ .label name ∈ code := by
  obtain ⟨code, h⟩ := forwardSource_compiles
  obtain ⟨img, himg⟩ := loaded_as_written h
  exact ⟨code, img, h, himg⟩

/-- **Labels are distinct unless a function is named like a statement of the program.** -/
theorem labels_distinct_iff (h : compile source = .ok code) :
    ∃ p L k own, (report source).accepted = .ok p ∧ p.layout? = some L ∧ Fresh ⟨0, 0, 0⟩ k own ∧
      (labelsOf code).Perm ("main" :: L.routines.map (·.activation.name) ++ own) ∧
      ("main" :: L.routines.map (·.activation.name)).Nodup ∧
      ((labelsOf code).Nodup ↔ ∀ r ∈ L.routines, r.activation.name ∉ own) := by
  obtain ⟨p, L, log, htree, hlayout, hsound, -, hprogram⟩ := compile_code h
  obtain ⟨k, own, hfresh, hperm, -⟩ := hprogram.labels hsound
  exact ⟨p, L, k, own, htree, hlayout, hfresh, hperm, hsound.names_nodup,
    nodup_labels_iff hsound hfresh hperm⟩

/-- A function that has the name of a label of the statement that calls it. -/
def clashSource : String :=
  "program p; function else0: integer; begin else0 := 7 end; " ++
    "begin if 1 = 2 then writeln('a') else writeln(else0) end."

/-- The label of the function is also the label of the second branch. -/
theorem clashSource_labels : ∃ code, compile clashSource = .ok code ∧ ¬ (labelsOf code).Nodup := by
  have hrun : (match compile clashSource with
      | .ok code => !decide (labelsOf code).Nodup
      | .error _ => false) = true := by decide +kernel
  cases h : compile clashSource with
  | ok code =>
    simp only [h, Bool.not_eq_true', decide_eq_false_iff_not] at hrun
    exact ⟨code, rfl, hrun⟩
  | error e =>
    rw [h] at hrun
    cases hrun

theorem labels_distinct_iff_clashSource : ∃ code p L k own, compile clashSource = .ok code ∧
    (report clashSource).accepted = .ok p ∧ p.layout? = some L ∧ Fresh ⟨0, 0, 0⟩ k own ∧
    (labelsOf code).Perm ("main" :: L.routines.map (·.activation.name) ++ own) ∧
    ∃ r ∈ L.routines, r.activation.name ∈ own := by
  obtain ⟨code, h, hclash⟩ := clashSource_labels
  obtain ⟨p, L, k, own, htree, hlayout, hfresh, hperm, -, hiff⟩ := labels_distinct_iff h
  refine ⟨code, p, L, k, own, h, htree, hlayout, hfresh, hperm, ?_⟩
  by_contra hno
  exact hclash (hiff.mpr fun r hr hown => hno ⟨r, hr, hown⟩)

end

end PascalStack
