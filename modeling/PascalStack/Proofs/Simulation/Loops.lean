import PascalStack.Proofs.Compiler.Listing
import PascalStack.Proofs.Machine.CountedLoops
import PascalStack.Proofs.Simulation.Activations
import PascalStack.Proofs.Simulation.Literals

/-!
# Counted loops of a program

The loops of a program are numbered in the order in which they are compiled, and their labels bear the numbers.

* `Layout.loops`       the counted loops of a program, those of its functions first;
* `LoopsIn`            the numbers of the loops in a piece of code;
* `LoopPlace.Of`       the parts of a loop, with the positions of their code;
* `for_counts`         the turns of a loop in compiled code.
-/

namespace PascalStack

/-! ## numbers of loops -/

mutual

/-- The counted loops of a statement, in the order of their beginnings. -/
@[simp] def Stmt.loops : Stmt → List Stmt
  | .compound body => loopsOf body
  | .ifThen _ thenBranch => thenBranch.loops
  | .ifThenElse _ thenBranch elseBranch => thenBranch.loops ++ elseBranch.loops
  | .whileDo _ body => body.loops
  | .forDo control initial direction final body => .forDo control initial direction final body :: body.loops
  | .assign _ _ | .call _ _ => []

@[simp] def loopsOf : List Stmt → List Stmt
  | [] => []
  | s :: ss => s.loops ++ loopsOf ss

end

def Context.loopsOf (x : Context) (ss : List Stmt) : List (Context × Stmt) :=
  (PascalStack.loopsOf ss).map fun s => (x, s)

/-- The counted loops of a program, in the order in which they are compiled. -/
def Layout.loops (L : Layout) (p : Program) : List (Context × Stmt) :=
  (L.routines.flatMap fun r => (L.contextOf r).loopsOf r.block.statements) ++
    L.context.loopsOf p.block.statements

/-- The code of the loops is in a piece of code, with the numbers from `k` up to `k'`. -/
structure LoopsIn (k k' : Nat) (loops : List (Context × Stmt)) (code : List Line) : Prop where
  next : k' = k + loops.length
  found : ∀ i x s, loops[i]? = some (x, s) → ∃ before seg after j j',
    code = before ++ seg ++ after ∧ StmtCode x j s seg j' ∧ j.fors = k + i

namespace LoopsIn
variable {k k₁ k' : Nat} {loops more : List (Context × Stmt)} {code rest : List Line}

theorem nil (k : Nat) (code : List Line) : LoopsIn k k [] code := ⟨rfl, nofun⟩

theorem prepend (h : LoopsIn k k' loops code) (before : List Line) : LoopsIn k k' loops (before ++ code) := by
  refine ⟨h.next, fun i x s hs => ?_⟩
  obtain ⟨a, seg, b, j, j', rfl, hseg⟩ := h.found i x s hs
  exact ⟨before ++ a, seg, b, j, j', by simp only [List.append_assoc], hseg⟩

theorem append (h : LoopsIn k k' loops code) (after : List Line) : LoopsIn k k' loops (code ++ after) := by
  refine ⟨h.next, fun i x s hs => ?_⟩
  obtain ⟨a, seg, b, j, j', rfl, hseg⟩ := h.found i x s hs
  exact ⟨a, seg, b ++ after, j, j', by simp only [List.append_assoc], hseg⟩

theorem join (h : LoopsIn k k₁ loops code) (h' : LoopsIn k₁ k' more rest) :
    LoopsIn k k' (loops ++ more) (code ++ rest) := by
  have hnext := h.next
  refine ⟨by rw [h'.next, hnext, List.length_append, Nat.add_assoc], fun i x s hs => ?_⟩
  by_cases hi : i < loops.length
  · rw [List.getElem?_append_left hi] at hs
    exact (h.append rest).found i x s hs
  · rw [List.getElem?_append_right (Nat.le_of_not_lt hi)] at hs
    obtain ⟨a, seg, b, j, j', hcode, hseg, hj⟩ := (h'.prepend code).found _ x s hs
    exact ⟨a, seg, b, j, j', hcode, hseg, by omega⟩

/-- A loop comes before the loops in its body. -/
theorem cons {x : Context} {s : Stmt} {j j' : Counters} (hs : StmtCode x j s code j')
    (h : LoopsIn (j.fors + 1) k' loops code) : LoopsIn j.fors k' ((x, s) :: loops) code := by
  refine ⟨by rw [h.next, List.length_cons]; omega, fun i x' s' hi => ?_⟩
  cases i with
  | zero =>
    cases hi
    exact ⟨[], code, [], j, j', by simp only [List.nil_append, List.append_nil], hs, rfl⟩
  | succ i =>
    obtain ⟨a, seg, b, l, l', hcode, hseg, hl⟩ := h.found i x' s' hi
    exact ⟨a, seg, b, l, l', hcode, hseg, by omega⟩

end LoopsIn

mutual

theorem StmtCode.loopsIn {x : Context} {k k' : Counters} {s : Stmt} {code : List Line}
    (h : StmtCode x k s code k') : LoopsIn k.fors k'.fors (s.loops.map fun s => (x, s)) code := by
  cases h with
  | compound hb => exact hb.loopsIn
  | assign _ => exact .nil ..
  | ifThen _ _ ht => exact (ht.loopsIn.prepend _).append _
  | ifThenElse _ _ ht he =>
    rw [Stmt.loops, List.map_append]
    exact (((((ht.loopsIn.prepend _).append _).append _).join he.loopsIn).append _)
  | whileDo _ _ hb => exact ((hb.loopsIn.prepend _).append _).append _
  | forDo hr ht hi hf hic hfc hb =>
    exact .cons (.forDo hr ht hi hf hic hfc hb) (((hb.loopsIn.prepend _).append _).append _)
  | call _ => exact .nil ..

theorem StmtsCode.loopsIn {x : Context} {k k' : Counters} {ss : List Stmt} {code : List Line}
    (h : StmtsCode x k ss code k') : LoopsIn k.fors k'.fors (x.loopsOf ss) code := by
  cases h with
  | nil => exact .nil ..
  | cons hs hr =>
    rw [Context.loopsOf, loopsOf, List.map_append]
    exact hs.loopsIn.join hr.loopsIn

end

theorem RoutinesCode.loopsIn {L : Layout} {k k' : Counters} {rs : List Routine} {code : List Line}
    (h : RoutinesCode L k rs code k') : LoopsIn k.fors k'.fors
      (rs.flatMap fun r => (L.contextOf r).loopsOf r.block.statements) code := by
  induction h with
  | nil => exact .nil ..
  | cons hr _ ih =>
    cases hr with
    | mk _ _ hstatements =>
      rw [List.flatMap_cons]
      exact ((hstatements.loopsIn.prepend _).append _).join ih

/-- The loops of a program are numbered from zero on. -/
theorem ProgramCode.loopsIn {L : Layout} {p : Program} {code : List Line} (h : ProgramCode L p code) :
    ∃ k, LoopsIn 0 k (L.loops p) code := by
  cases h with
  | mk _ hroutines hstatements =>
    exact ⟨_, ((((hroutines.loopsIn.prepend _).append _).append _).join hstatements.loopsIn).append _⟩

/-! ## places of loops -/

/-- A counted loop stands in its place: the code of its parts, and the instructions around them. -/
structure LoopPlace.Of (F : LoopPlace) (code : Code) (targets : String → Option Nat) (x : Context) (k : Nat)
    (control : String) (initial : Expr) (direction : Direction) (final : Expr) (body : Stmt) : Prop where
  control_slot : ∃ v, x.scopes.resolve? control = some v ∧ F.slot = v.slot
  direction_eq : F.direction = direction
  initial_code : ∃ seg, ExprCode x.scopes initial seg ∧ Placed code targets F.start seg F.store
  head_label : targets (forLabel k) = some F.head
  final_code : ∃ seg, ExprCode x.scopes final seg ∧ Placed code targets (F.head + 1) seg F.test
  body_code : ∃ seg j j', StmtCode x j body seg j' ∧ Placed code targets F.body seg F.next
  stop_label : targets (endForLabel k) = some F.stop
  stands : F.Stands code

section
variable {control : String} {initial final : Expr} {direction : Direction} {body : Stmt}

/-- The code of a loop, in an image. -/
theorem StmtCode.loopPlace {x : Context} {j j' : Counters} {seg : List Line} {code : Code}
    {targets : String → Option Nat} {p q : Nat} (hslots : x.SlotsFit)
    (h : StmtCode x j (.forDo control initial direction final body) seg j')
    (hp : Placed code targets p seg q) :
    ∃ F : LoopPlace, F.Of code targets x j.fors control initial direction final body := by
  cases h with
  | @forDo _ _ _ v _ _ _ _ _ _ _ hr _ _ _ hinitial hfinal hbody =>
    -- the pieces of the code, from its end to its beginning
    obtain ⟨_, hp, hend⟩ := placed_append.mp hp
    obtain ⟨next, hp, hnext⟩ := placed_append.mp hp
    obtain ⟨_, hp, hturn⟩ := placed_append.mp hp
    obtain ⟨test, hp, htest⟩ := placed_append.mp hp
    obtain ⟨_, hp, hlast⟩ := placed_append.mp hp
    obtain ⟨_, hp, hcurrent⟩ := placed_append.mp hp
    obtain ⟨_, hp, hstart⟩ := placed_append.mp hp
    obtain ⟨store, hfirst, hstore⟩ := placed_append.mp hp
    have hslot : v.slot < wordSize := hslots.declared _ _ hr
    -- the jumps lead to the two labels, and each instruction stands after the one before it
    obtain ⟨hout, rfl⟩ := hend.label
    obtain ⟨hback, rfl⟩ := hstart.label
    obtain ⟨opStore, rfl⟩ := hstore.instruction (decide_eq_true hslot) rfl
    obtain ⟨opCurrent, rfl⟩ := hcurrent.instruction (decide_eq_true hslot) rfl
    obtain ⟨_, htest, hexit⟩ := htest.uncons
    obtain ⟨opTest, rfl⟩ := htest.instruction rfl rfl
    obtain ⟨opExit, rfl⟩ := hexit.instruction rfl (congrArg (Option.map Op.jz) hout)
    obtain ⟨_, hload, hnext⟩ := hnext.uncons
    obtain ⟨opLoad, rfl⟩ := hload.instruction (decide_eq_true hslot) rfl
    obtain ⟨_, hone, hnext⟩ := hnext.uncons
    obtain ⟨opOne, rfl⟩ := hone.instruction rfl rfl
    obtain ⟨_, hcount, hnext⟩ := hnext.uncons
    obtain ⟨opCount, rfl⟩ := hcount.instruction rfl rfl
    obtain ⟨_, hkeep, hjump⟩ := hnext.uncons
    obtain ⟨opKeep, rfl⟩ := hkeep.instruction (decide_eq_true hslot) rfl
    obtain ⟨opBack, rfl⟩ := hjump.instruction rfl (congrArg (Option.map Op.jump) hback)
    refine ⟨⟨v.slot, direction, p, store, test, next⟩, ⟨v, hr, rfl⟩, rfl, ⟨_, hinitial, hfirst⟩, hback,
      ⟨_, hfinal, hlast⟩, ⟨_, _, _, hbody, hturn⟩, hout, ?_⟩
    exact ⟨opStore, opCurrent, opTest, opExit, opLoad, opOne, opCount, opKeep, opBack, hlast.le, hturn.le⟩

/-- The slots of what is in sight where a loop stands can be written in code. -/
theorem Layout.SlotsFit.of_mem_loops {L : Layout} {p : Program} {x : Context} {s : Stmt} (h : L.SlotsFit)
    (hs : (x, s) ∈ L.loops p) : x.SlotsFit := by
  rcases List.mem_append.mp hs with hs | hs
  · obtain ⟨r, hr, hs⟩ := List.mem_flatMap.mp hs
    obtain ⟨_, -, heq⟩ := List.mem_map.mp hs
    cases heq
    exact h.routines r hr
  · obtain ⟨_, -, heq⟩ := List.mem_map.mp hs
    cases heq
    exact h.main

variable {source : String} {code : List Line} {p : Program} {L : Layout} {k : Nat} {x : Context}

/-- The places of the loops in compiled code. -/
theorem loop_placed (hcompile : compile source = .ok code) (htree : (report source).accepted = .ok p)
    (hlayout : p.layout? = some L) (hlabels : (labelsOf code).Nodup)
    (hloop : (L.loops p)[k]? = some (x, .forDo control initial direction final body)) :
    ∃ (img : Image) (F : LoopPlace), load (codeText code) = .ok img ∧
      F.Of img.code img.target? x k control initial direction final body := by
  obtain ⟨_, _, log, htree', hlayout', hsound, hregions, hprogram⟩ := compile_code hcompile
  cases htree.symm.trans htree'
  cases hlayout.symm.trans hlayout'
  obtain ⟨_, _, -, -, htargets⟩ := hprogram.labels hsound
  obtain ⟨img, _, hload, hplaced⟩ :=
    load_codeText hprogram.ne_nil (hprogram.readable hsound fun _ hname => hname) hlabels htargets
  obtain ⟨_, hloops⟩ := hprogram.loopsIn
  obtain ⟨before, seg, after, j, j', rfl, hseg, hj⟩ := hloops.found k _ _ hloop
  rw [Nat.zero_add] at hj
  obtain ⟨_, hplaced, -⟩ := placed_append.mp hplaced
  obtain ⟨_, -, hplaced⟩ := placed_append.mp hplaced
  have hslots := hregions.layout_slotsFit.of_mem_loops (List.mem_of_getElem? hloop)
  obtain ⟨F, hF⟩ := hseg.loopPlace hslots hplaced
  exact ⟨img, F, hload, hj ▸ hF⟩

/-- **Counted loops.**  Take any counted loop of a compiled program, a state in which it is begun, `lo` for the
value of its initial expression and `hi` for that of its final one.  As long as neither the final expression
nor the body changes the control variable or the final value, and the body comes to its end, the loop makes
one turn for each integer from `lo` to `hi`, with the control variable at these integers one after the other,
and is then left.  There is one exception.  If `hi` is the last machine integer in the direction of the loop,
and there is something to count, the loop is never left. -/
theorem for_counts (hcompile : compile source = .ok code) (htree : (report source).accepted = .ok p)
    (hlayout : p.layout? = some L) (hlabels : (labelsOf code).Nodup)
    (hloop : (L.loops p)[k]? = some (x, .forDo control initial direction final body)) :
    ∃ (img : Image) (F : LoopPlace), load (codeText code) = .ok img ∧
      F.Of img.code img.target? x k control initial direction final body ∧
      ∀ s s₀ lo hi, F.Begins img.code s lo s₀ → F.Bounded img.code s.calls s₀ hi →
        F.Passable img.code s.calls s₀ →
        if direction.Endless lo hi then
          (∀ n, ∃ t, F.Turns img.code s.calls s₀ (direction.values lo n) t) ∧
            ∀ vs t w, F.Turns img.code s.calls s₀ vs t → ¬ F.Leaves img.code s.calls t w
        else
          ∃ t w, F.Turns img.code s.calls s₀ (direction.values lo (direction.count lo hi)) t ∧
            F.Leaves img.code s.calls t w ∧
            ∀ vs t' w', F.Turns img.code s.calls s₀ vs t' → F.Leaves img.code s.calls t' w' →
              vs = direction.values lo (direction.count lo hi) := by
  obtain ⟨img, F, hload, hF⟩ := loop_placed hcompile htree hlayout hlabels hloop
  refine ⟨img, F, hload, hF, fun s s₀ lo hi hbegins hhi hpass => ?_⟩
  rw [← hF.direction_eq]
  exact hF.stands.counts hbegins hhi hpass

end

/-! ## loops that write -/

section
variable {control : String} {lo hi : Int64} {direction : Direction} {c : Char} {F : LoopPlace} {code : Code}
  {targets : String → Option Nat} {x : Context} {k : Nat}

/-- A loop with constants for its bounds that writes a character in each turn. -/
def Stmt.isPrinting (control : String) (lo : Int64) (direction : Direction) (hi : Int64) (c : Char) : Stmt → Bool
  | .forDo control' (.constant initial) direction' (.constant final) (.call name [.value (.constant char)]) =>
    control' = control ∧ initial = .integer lo ∧ direction' = direction ∧ final = .integer hi ∧ name = "write" ∧
      char = .char c
  | _ => false

theorem Stmt.isPrinting_eq_true {s : Stmt} (h : s.isPrinting control lo direction hi c = true) :
    s = .forDo control (.constant (.integer lo)) direction (.constant (.integer hi))
      (.call "write" [.value (.constant (.char c))]) := by
  unfold isPrinting at h
  split at h
  · obtain ⟨rfl, rfl, rfl, rfl, rfl, rfl⟩ := of_decide_eq_true h
    rfl
  · cases h

/-- The code that writes a character. -/
theorem writeChar_code {j j' : Counters} {seg : List Line}
    (h : StmtCode x j (.call "write" [.value (.constant (.char c))]) seg j') :
    seg = emit [(Constant.char c).push, .basic .writechr] := by
  have hwrite : Builtin.ofName? "write" = some .write := rfl
  cases h with
  | call hcall =>
    cases hcall with
    | write hname _ hwrites =>
      cases hwrite.symm.trans hname
      cases hwrites with
      | cons htype hchar hcode hrest =>
        cases hrest
        cases htype
        cases hchar
        cases hcode
        rfl
    | function hfunction _ => cases hfunction _ hwrite

/-- Where the code of a loop stands that writes a character. -/
theorem LoopPlace.Of.printing (hF : F.Of code targets x k control (.constant (.integer lo)) direction
      (.constant (.integer hi)) (.call "write" [.value (.constant (.char c))])) :
    (code[F.start]? = some (.ok (.pushi lo)) ∧ F.store = F.start + 1) ∧
    (code[F.head + 1]? = some (.ok (.pushi hi)) ∧ F.test = F.head + 2) ∧
    code[F.body]? = some (.ok (.pushi (Int64.ofNat c.toNat))) ∧
    code[F.body + 1]? = some (.ok (.basic .writechr)) ∧ F.next = F.body + 2 := by
  obtain ⟨_, hinitial, hstart⟩ := hF.initial_code
  obtain ⟨_, hfinal, htest⟩ := hF.final_code
  obtain ⟨_, _, _, hbody, hnext⟩ := hF.body_code
  cases hinitial
  cases hfinal
  cases writeChar_code hbody
  obtain ⟨_, hchar, hwrite⟩ := hnext.uncons
  obtain ⟨opChar, rfl⟩ := hchar.instruction rfl rfl
  obtain ⟨opWrite, hnext⟩ := hwrite.instruction rfl rfl
  exact ⟨hstart.instruction rfl rfl, htest.instruction rfl rfl, opChar, opWrite, hnext⟩

/-- Such a loop can be begun in any state. -/
theorem LoopPlace.Of.begins_printing (hF : F.Of code targets x k control (.constant (.integer lo)) direction
      (.constant (.integer hi)) (.call "write" [.value (.constant (.char c))]))
    (hslot : F.slot < maxGlobals) (s : State) : ∃ s₀, F.Begins code s lo s₀ := by
  obtain ⟨⟨opInitial, hstore⟩, -, -⟩ := hF.printing
  obtain ⟨u, hu, hstack, hcalls, -⟩ := (does_push rfl).step opInitial (List.nil_append s.stack).symm rfl
  obtain ⟨s₀, hs₀, -, -, -⟩ := (does_storeg F.slot).step hF.stands.store hstack (Eval.storeSlot_of_lt hslot)
  refine ⟨s₀, u, .step (by omega) hu ?_, hstack, _, s₀, hs₀, rfl, rfl⟩
  rw [← hstore]
  exact .here hcalls

theorem LoopPlace.Of.bounded_printing (hF : F.Of code targets x k control (.constant (.integer lo)) direction
      (.constant (.integer hi)) (.call "write" [.value (.constant (.char c))])) (calls : List Nat) (s₀ : State) :
    F.Bounded code calls s₀ hi := by
  intro vs s _ hs
  obtain ⟨-, ⟨opFinal, htest⟩, -⟩ := hF.printing
  obtain ⟨u, hu, hstack, hcalls, hmemory⟩ :=
    (does_push rfl).step (s := { s with stack := s.memory.slots F.slot :: s.stack }) opFinal
      (List.nil_append _).symm rfl
  refine ⟨u, .step (by omega) hu ?_, hstack, by rw [hmemory]; rfl⟩
  have hat : F.head + 1 + 1 = F.test := htest.symm
  rw [hat]
  exact .here (hcalls.trans hs)

theorem LoopPlace.Of.passable_printing (hF : F.Of code targets x k control (.constant (.integer lo)) direction
      (.constant (.integer hi)) (.call "write" [.value (.constant (.char c))])) (calls : List Nat) (s₀ : State) :
    F.Passable code calls s₀ := by
  intro vs s b _ _ hb
  obtain ⟨-, -, opChar, opWrite, hnext⟩ := hF.printing
  have hwritten : ∀ m, (Eval.lift (Basic.writechr.written (.integer (Int64.ofNat c.toNat))) >>= Eval.write) m =
      .ok () { m with output := m.output ++ String.singleton c } := by
    intro m
    rw [written_character]
    rfl
  obtain ⟨u, hu, hustack, hucalls, humemory⟩ := (does_push rfl).step opChar (List.nil_append b.stack).symm rfl
  obtain ⟨n, hn, -, hncalls, hnmemory⟩ := (does_written rfl).step opWrite hustack (hwritten _)
  refine ⟨n, .step (by omega) hu (.step (by omega) hn ?_), by rw [hnmemory, humemory]⟩
  have hat : F.body + 1 + 1 = F.next := hnext.symm
  rw [hat]
  exact .here (hncalls.trans (hucalls.trans hb))

/-- The labels of a program are distinct, and its loop with a number writes a character. -/
def printsAt (k : Nat) (control : String) (lo : Int64) (direction : Direction) (hi : Int64) (c : Char)
    (p : Program) (code : List Line) (L : Layout) : Bool :=
  decide (labelsOf code).Nodup && (L.loops p)[k]?.any fun loop =>
    loop.2.isPrinting control lo direction hi c &&
      (loop.1.scopes.resolve? control).any fun v => v.slot < maxGlobals

theorem printsAt_eq_true {p : Program} {code : List Line} {L : Layout}
    (h : printsAt k control lo direction hi c p code L = true) :
    (labelsOf code).Nodup ∧ ∃ x v, (L.loops p)[k]? = some (x, .forDo control (.constant (.integer lo)) direction
      (.constant (.integer hi)) (.call "write" [.value (.constant (.char c))])) ∧
      x.scopes.resolve? control = some v ∧ v.slot < maxGlobals := by
  simp only [printsAt, Bool.and_eq_true, decide_eq_true_eq, Option.any_eq_true] at h
  obtain ⟨hlabels, ⟨x, s⟩, hloop, hs, v, hv, hslot⟩ := h
  cases Stmt.isPrinting_eq_true hs
  exact ⟨hlabels, x, v, hloop, hv, hslot⟩

theorem LoopPlace.Of.slot_eq {initial final : Expr} {body : Stmt} {v : Variable}
    (hF : F.Of code targets x k control initial direction final body)
    (hv : x.scopes.resolve? control = some v) : F.slot = v.slot := by
  obtain ⟨v', hv', hslot⟩ := hF.control_slot
  cases hv.symm.trans hv'
  exact hslot

end

/-- A loop that counts down inside of one that counts up. -/
def nestedSource : String :=
  "program p; var i, j: integer; begin for i := 1 to 2 do for j := 3 downto 1 do write('x') end."

/-- The inner loop is the second, and its control variable goes through three values. -/
theorem for_counts_nested : ∃ code p L x img F s₀ t w, compile nestedSource = .ok code ∧
    (report nestedSource).accepted = .ok p ∧ p.layout? = some L ∧ (labelsOf code).Nodup ∧
    (L.loops p)[1]? = some (x, .forDo "j" (.constant (.integer 3)) .downto (.constant (.integer 1))
      (.call "write" [.value (.constant (.char 'x'))])) ∧
    load (codeText code) = .ok img ∧ LoopPlace.Begins F img.code (.initial []) 3 s₀ ∧
    F.Turns img.code [] s₀ [3, 2, 1] t ∧ F.Leaves img.code [] t w := by
  have hcheck : checkSource nestedSource (fun p code L _ => printsAt 1 "j" 3 .downto 1 'x' p code L) = true :=
    checkSource_of_checkImage (by decide +kernel)
  obtain ⟨p, code, L, -, hcompile, htree, hlayout, -, hcheck⟩ := checkSource_eq_true.mp hcheck
  obtain ⟨hlabels, x, v, hloop, hv, hslot⟩ := printsAt_eq_true hcheck
  obtain ⟨img, F, hload, hF, hruns⟩ := for_counts hcompile htree hlayout hlabels hloop
  rw [← hF.slot_eq hv] at hslot
  obtain ⟨s₀, hbegins⟩ := hF.begins_printing hslot (.initial [])
  have hcounts := hruns _ s₀ 3 1 hbegins (hF.bounded_printing _ s₀) (hF.passable_printing _ s₀)
  rw [if_neg (by decide)] at hcounts
  obtain ⟨t, w, hturns, hleaves, -⟩ := hcounts
  exact ⟨code, p, L, x, img, F, s₀, t, w, hcompile, htree, hlayout, hlabels, hloop, hload, hbegins, hturns, hleaves⟩

/-- A loop up to the last machine integer. -/
def endlessSource : String :=
  "program P; var i: integer; begin for i := 9223372036854775807 to 9223372036854775807 do write('x') end."

/-- There is one value to count, and the loop goes on behind it, with the least machine integer. -/
theorem endlessSource_runs_forever : ∃ code img, compile endlessSource = .ok code ∧
    load (codeText code) = .ok img ∧ img.RunsForever [] ∧
    execute (codeText code) [] = .error (.stepLimit usualLimit) := by
  have hcheck : checkSource endlessSource (fun p code L img =>
      printsAt 0 "i" 9223372036854775807 .to 9223372036854775807 'x' p code L &&
        decide ((runFrom img.code 4 0 (.initial [])).1 = .suspended 4 ∧ img.target? (forLabel 0) = some 6)) = true :=
    checkSource_of_checkImage (by decide +kernel)
  obtain ⟨p, code, L, img, hcompile, htree, hlayout, hload, hcheck⟩ := checkSource_eq_true.mp hcheck
  rw [Bool.and_eq_true, decide_eq_true_eq] at hcheck
  obtain ⟨hcheck, hstart, hlabel⟩ := hcheck
  obtain ⟨hlabels, x, v, hloop, hv, hslot⟩ := printsAt_eq_true hcheck
  obtain ⟨img', F, hload', hF⟩ := loop_placed hcompile htree hlayout hlabels hloop
  cases hload.symm.trans hload'
  rw [← hF.slot_eq hv] at hslot
  -- the declaration, the jump to the program and its first instruction come before the loop
  obtain ⟨s, hs⟩ : ∃ s, runFrom img.code 4 0 (.initial []) = (.suspended 4, s) := ⟨_, Prod.ext hstart rfl⟩
  have hreach : StepsTo img.code 4 0 (.initial []) F.start s := by
    have hhead : F.store + 1 = 6 := Option.some.inj (hF.head_label.symm.trans hlabel)
    have hstore := hF.printing.1.2
    have hat : F.start = 4 := by omega
    rw [hat]
    exact stepsTo_of_runFrom hs
  obtain ⟨s₀, hbegins⟩ := hF.begins_printing hslot s
  have hforever : img.RunsForever [] :=
    hF.stands.runs_forever hreach hbegins (hF.bounded_printing _ s₀) (hF.passable_printing _ s₀)
      (by rw [hF.direction_eq]; decide)
  obtain ⟨q, t, hrun⟩ := hforever usualLimit
  exact ⟨code, img, hcompile, hload, hforever, execute_of_fault hload hrun rfl⟩

end PascalStack
