import PascalStack.Proofs.Grammar.Budget

/-!
# What the parser accepts

The parser, with its repair of errors, against runs without any.

* `Automaton.Rooted`   a condition on the tables: the accepting state is only entered with a program,
                       on an empty stack;
* `Marked`             a stack that holds an error mark, or once did;
* `Automaton.Rooted.parseFrom_marked`   once marked, the outcome shows a repair or an error;
* `Automaton.Graded.parseFrom_run`   the parser follows the runs;
* `Automaton.Rooted.run_of_parseFrom`, `Automaton.Graded.parseFrom_of_run`   the outcomes without repairs
                       are those of runs;
* `Automaton.parse_eq_intact_iff`   a program comes out without repairs iff the tokens derive it;
* `Automaton.Complete.derives_unique`   there is one derivation only.
-/

namespace PascalStack

def tokensOf (xs : List Lexeme) : List Token := xs.map Lexeme.token

/-- An outcome that is a program for which nothing was repaired. -/
def Outcome.intact (p : Program) : Outcome := ⟨.ok p, []⟩

namespace Automaton

/-- The accepting state is the one after a program on the empty stack, and no other; the start state is
after nothing. -/
structure Rooted (A : Automaton) : Prop where
  enter : A.goto? 0 .program = some A.accepting
  start : ∀ p X, A.after? p X ≠ some 0
  accept : ∀ p X, A.after? p X = some A.accepting → p = 0 ∧ X = .nonterminal .program
  nonzero : A.accepting ≠ 0

def checkRooted (A : Automaton) : Bool :=
  A.goto? 0 .program = some A.accepting && A.accepting ≠ 0 &&
    A.rows.toList.zipIdx.all fun y => y.1.edges.all fun x =>
      x.2 ≠ 0 && (x.2 ≠ A.accepting || (y.2 = 0 && x.1 = .nonterminal .program))

theorem rooted_of_check {A : Automaton} (h : A.checkRooted = true) : A.Rooted := by
  simp only [checkRooted, Bool.and_eq_true, List.all_eq_true, Bool.or_eq_true,
    decide_eq_true_eq] at h
  obtain ⟨⟨henter, hnonzero⟩, hrows⟩ := h
  have hedge : ∀ p X q, A.after? p X = some q →
      q ≠ 0 ∧ (q ≠ A.accepting ∨ (p = 0 ∧ X = .nonterminal .program)) := by
    intro p X q hq
    obtain ⟨row, hrow, hmem⟩ := edge_of_after? hq
    exact hrows _ (mem_zipIdx_of_getElem? hrow) _ hmem
  refine ⟨henter, fun p X hq => (hedge p X 0 hq).1 rfl, fun p X hq => ?_, hnonzero⟩
  exact (hedge p X _ hq).2.resolve_left fun hne => hne rfl

section
variable {A : Automaton}

theorem accepting_of_move {p : Nat} {t : Option Terminal} (h : A.move p t = .accept) :
    p = A.accepting ∧ t = none := by
  unfold move at h
  split at h
  · exact ‹_ ∧ _›
  · split at h
    · unfold Row.move at h
      split at h
      · cases h
      · split at h <;> cases h
    · cases h

/-- Where the automaton accepts, the stack holds one program and nothing else. -/
theorem Rooted.stack_of_accept (hA : A.Rooted) {stack : List Frame} {t : Option Terminal}
    (hl : A.Linked stack) (h : A.move (topState stack) t = .accept) :
    ∃ p, stack = [⟨A.accepting, .nonterminal .program, p⟩] := by
  have htop := (accepting_of_move h).1
  cases stack with
  | nil => exact absurd htop.symm hA.nonzero
  | cons f rest =>
    obtain ⟨hf, hrest⟩ := hl
    rw [topState_cons] at htop
    rw [htop] at hf
    obtain ⟨hzero, hsym⟩ := hA.accept _ _ hf
    cases rest with
    | nil =>
      obtain ⟨state, X, v⟩ := f
      cases hsym
      cases htop
      exact ⟨v, rfl⟩
    | cons g rest =>
      rw [topState_cons] at hzero
      exact absurd (hzero ▸ hrest.1) (hA.start _ _)

end

end Automaton

/-! ## stacks with error marks -/

/-- An error mark is on the stack, or was on it and has been reduced. -/
def Marked (c : Config) : Prop := c.recovered ≠ [] ∨ ∃ f ∈ c.stack, f.symbol = .error

theorem recovery?_of_error {f : Frame} (h : f.symbol = .error) : ∃ r, f.recovery? = some r := by
  obtain ⟨state, X, v⟩ := f
  cases h
  exact ⟨v, rfl⟩

namespace Automaton
variable {A : Automaton} {t : Option Terminal}

theorem marked_reduce {rule : Nat} {c c₁ : Config} (hm : Marked c)
    (h : A.reduce rule c = some c₁) : Marked c₁ := by
  obtain ⟨r, v, state, _, _, _, rfl⟩ := reduce_eq_some.mp h
  rcases hm with hrec | ⟨f, hf, hsym⟩
  · exact .inl fun h => hrec (List.append_eq_nil_iff.mp h).1
  · rw [← List.take_append_drop r.rhs.length c.stack] at hf
    rcases List.mem_append.mp hf with hf | hf
    · obtain ⟨e, he⟩ := recovery?_of_error hsym
      refine .inl fun h => ?_
      have hmem : e ∈ (c.stack.take r.rhs.length).reverse.filterMap Frame.recovery? :=
        List.mem_filterMap.mpr ⟨f, List.mem_reverse.mpr hf, he⟩
      rw [(List.append_eq_nil_iff.mp h).2] at hmem
      cases hmem
    · exact .inr ⟨f, List.mem_cons_of_mem _ hf, hsym⟩

theorem marked_settleUpTo {n : Nat} {c : Config} (hm : Marked c) (hl : A.Linked c.stack) :
    Marked (A.settleUpTo t n c).1 ∧ A.Linked (A.settleUpTo t n c).1.stack := by
  induction n generalizing c with
  | zero => exact ⟨hm, hl⟩
  | succ n ih =>
    simp only [settleUpTo]
    split
    · exact ⟨hm, hl⟩
    · exact ⟨hm, hl⟩
    · exact ⟨hm, hl⟩
    · split
      · exact ih (marked_reduce hm ‹_›) (hl.reduce ‹_›)
      · exact ⟨hm, hl⟩

/-- What the place where the automaton settles says about the move there. -/
theorem move_of_settleUpTo {n : Nat} {c c₁ : Config} {s : Settled}
    (h : A.settleUpTo t n c = (c₁, s)) :
    (∀ state, s = .shift state → A.move (topState c₁.stack) t = .shift state) ∧
      (s = .accept → A.move (topState c₁.stack) t = .accept) := by
  have hstuck : (∀ state, Settled.stuck = .shift state → A.move (topState c₁.stack) t = .shift state) ∧
      (Settled.stuck = .accept → A.move (topState c₁.stack) t = .accept) :=
    ⟨fun _ hs => Settled.noConfusion hs, fun hs => Settled.noConfusion hs⟩
  induction n generalizing c with
  | zero =>
    cases h
    exact hstuck
  | succ n ih =>
    simp only [settleUpTo] at h
    split at h
    · cases h
      refine ⟨fun state hs => ?_, fun hs => Settled.noConfusion hs⟩
      cases hs
      assumption
    · cases h
      exact ⟨fun _ hs => Settled.noConfusion hs, fun _ => ‹_›⟩
    · cases h
      exact hstuck
    · split at h
      · exact ih h
      · cases h
        exact hstuck

theorem linked_shift {c : Config} {x : Token} {state : Nat} (hl : A.Linked c.stack)
    (h : A.move (topState c.stack) (some x.terminal) = .shift state) :
    A.Linked (shift state x c).stack := by
  refine ⟨?_, hl⟩
  show A.after? _ (.terminal x.terminal) = _
  simp only [after?, h]

theorem marked_shift {c : Config} {x : Token} {state : Nat} (hm : Marked c) :
    Marked (shift state x c) := by
  rcases hm with hrec | ⟨f, hf, hsym⟩
  · exact .inl hrec
  · exact .inr ⟨f, List.mem_cons_of_mem _ hf, hsym⟩

theorem repairHere_marked {r : Recovery} {stack next : List Frame} (recovered : List Recovery)
    (hl : A.Linked stack) (h : A.repairHere t r stack = some next) :
    Marked ⟨next, recovered⟩ ∧ A.Linked next := by
  obtain ⟨state, hs, h⟩ := Option.bind_eq_some_iff.mp h
  split at h
  · cases h
    exact ⟨.inr ⟨_, List.mem_cons_self .., rfl⟩, hs, hl⟩
  · cases h

theorem repair_marked {r : Recovery} {stack next : List Frame} (recovered : List Recovery)
    (hl : A.Linked stack) (h : A.repair t r stack = some next) :
    Marked ⟨next, recovered⟩ ∧ A.Linked next := by
  induction stack with
  | nil => exact repairHere_marked recovered hl h
  | cons f rest ih =>
    simp only [repair] at h
    split at h
    · cases h
      exact repairHere_marked recovered hl ‹_›
    · exact ih hl.2 h

theorem settle_marked {c : Config} (hm : Marked c) (hl : A.Linked c.stack) :
    Marked (A.settle t c).1 ∧ A.Linked (A.settle t c).1.stack :=
  marked_settleUpTo hm hl

theorem Rooted.finish_marked (hA : A.Rooted) {e : SyntaxError} {c : Config} (hm : Marked c)
    (hl : A.Linked c.stack) (p : Program) : A.finish e c ≠ .intact p := by
  obtain ⟨hm₁, hl₁⟩ := settle_marked (t := none) hm hl
  unfold finish
  split
  · rename_i c₁ hs
    rw [hs] at hm₁ hl₁
    have hacc := (move_of_settleUpTo hs).2 rfl
    obtain ⟨q, hstack⟩ := hA.stack_of_accept hl₁ hacc
    have hrec : c₁.recovered ≠ [] := by
      refine hm₁.resolve_right ?_
      rintro ⟨f, hf, hsym⟩
      rw [hstack, List.mem_singleton] at hf
      cases hf
      cases hsym
    split
    · intro h
      exact hrec (Outcome.mk.inj h).2
    · exact nofun
  · exact nofun

theorem Rooted.finishAfter_marked (hA : A.Rooted) {r : Recovery} {c : Config}
    (hl : A.Linked c.stack) (p : Program) : A.finishAfter r c ≠ .intact p := by
  unfold finishAfter
  split
  · obtain ⟨hm, hl⟩ := repair_marked c.recovered hl ‹_›
    exact hA.finish_marked hm hl p
  · exact nofun

theorem Rooted.atEnd_marked (hA : A.Rooted) {position line : Nat} {c : Config} (hm : Marked c)
    (hl : A.Linked c.stack) (p : Program) : A.atEnd position line c ≠ .intact p := by
  obtain ⟨hm₁, hl₁⟩ := settle_marked (t := none) hm hl
  unfold atEnd
  split
  · rename_i hs
    rw [hs] at hm₁ hl₁
    exact hA.finish_marked hm₁ hl₁ p
  · rename_i hs
    rw [hs] at hl₁
    exact hA.finishAfter_marked hl₁ p

/-! ## the run over the tokens -/

/-- How the parser goes on at a token after which it found an error. -/
def parseAfter (A : Automaton) (x : Lexeme) (rest : List Lexeme) (position : Nat) (r : Recovery)
    (c : Config) : Outcome :=
  match A.repair (some x.token.terminal) r c.stack with
  | some stack =>
    match A.settle (some x.token.terminal) ⟨stack, c.recovered⟩ with
    | (c, .shift state) => A.parseFrom rest (position + 1) x.line none (shift state x.token c)
    | (c, _) => ⟨.error r.error, c.recovered⟩
  | none => A.parseFrom rest (position + 1) x.line (some ⟨r.error, r.dropped ++ [x]⟩) c

section
variable {x : Lexeme} {rest : List Lexeme} {position line : Nat} {c c₁ : Config}

theorem parseFrom_shift {state : Nat}
    (h : A.settle (some x.token.terminal) c = (c₁, .shift state)) :
    A.parseFrom (x :: rest) position line none c
      = A.parseFrom rest (position + 1) x.line none (shift state x.token c₁) := by
  simp only [parseFrom, h]

theorem parseFrom_stuck {s : Settled} (h : A.settle (some x.token.terminal) c = (c₁, s))
    (hs : ∀ state, s ≠ .shift state) :
    A.parseFrom (x :: rest) position line none c
      = A.parseAfter x rest position ⟨A.errorAt position x.line (some x.token) c₁, []⟩ c₁ := by
  simp only [parseFrom, h]
  cases s with
  | shift state => exact absurd rfl (hs state)
  | accept => rfl
  | stuck => rfl

theorem parseFrom_pending {r : Recovery} :
    A.parseFrom (x :: rest) position line (some r) c = A.parseAfter x rest position r c :=
  rfl

theorem parseAfter_repair {r : Recovery} {stack : List Frame} {state : Nat}
    (h : A.repair (some x.token.terminal) r c.stack = some stack)
    (hs : A.settle (some x.token.terminal) ⟨stack, c.recovered⟩ = (c₁, .shift state)) :
    A.parseAfter x rest position r c
      = A.parseFrom rest (position + 1) x.line none (shift state x.token c₁) := by
  simp only [parseAfter, h, hs]

theorem parseAfter_drop {r : Recovery} (h : A.repair (some x.token.terminal) r c.stack = none) :
    A.parseAfter x rest position r c
      = A.parseFrom rest (position + 1) x.line (some ⟨r.error, r.dropped ++ [x]⟩) c := by
  simp only [parseAfter, h]

end

theorem Rooted.parseFrom_marked (hA : A.Rooted) {xs : List Lexeme} {position line : Nat}
    {pending : Option Recovery} {c : Config} (hm : Marked c ∨ pending.isSome = true)
    (hl : A.Linked c.stack) (p : Program) :
    A.parseFrom xs position line pending c ≠ .intact p := by
  induction xs generalizing position line pending c with
  | nil =>
    cases pending with
    | none => exact hA.atEnd_marked (hm.resolve_right nofun) hl p
    | some r => exact hA.finishAfter_marked hl p
  | cons x rest ih =>
    have after : ∀ r c, A.Linked c.stack → A.parseAfter x rest position r c ≠ .intact p := by
      intro r c hl
      unfold parseAfter
      split
      · obtain ⟨hm, hl⟩ := repair_marked c.recovered hl ‹_›
        obtain ⟨hm, hl⟩ := settle_marked (t := some x.token.terminal) hm hl
        split
        · rename_i hs
          rw [hs] at hm hl
          exact ih (.inl (marked_shift hm)) (linked_shift hl ((move_of_settleUpTo hs).1 _ rfl))
        · exact nofun
      · exact ih (.inr rfl) hl
    cases pending with
    | some r =>
      rw [parseFrom_pending]
      exact after r c hl
    | none =>
      obtain ⟨hm, hl⟩ := settle_marked (t := some x.token.terminal) (hm.resolve_right nofun) hl
      cases hs : A.settle (some x.token.terminal) c with
      | mk c₁ s =>
        rw [hs] at hm hl
        by_cases hshift : ∃ state, s = .shift state
        · obtain ⟨state, rfl⟩ := hshift
          rw [parseFrom_shift hs]
          exact ih (.inl (marked_shift hm)) (linked_shift hl ((move_of_settleUpTo hs).1 _ rfl))
        · rw [parseFrom_stuck hs fun state h => hshift ⟨state, h⟩]
          exact after _ _ hl

theorem Rooted.parseAfter_marked (hA : A.Rooted) {x : Lexeme} {rest : List Lexeme}
    {position : Nat} {r : Recovery} {c : Config} (hl : A.Linked c.stack) (p : Program) :
    A.parseAfter x rest position r c ≠ .intact p := by
  rw [← @parseFrom_pending A x rest position 0 c r]
  exact hA.parseFrom_marked (.inr rfl) hl p

/-! ## outcomes and runs -/

def Unmarked (stack : List Frame) : Prop := ∀ f ∈ stack, f.symbol ≠ .error

theorem recovery?_eq_none {f : Frame} (h : f.symbol ≠ .error) : f.recovery? = none := by
  obtain ⟨state, X, v⟩ := f
  cases X with
  | error => exact absurd rfl h
  | terminal _ => rfl
  | nonterminal _ => rfl

theorem frames_take (st : List Cell) (n : Nat) : frames (st.take n) = (frames st).take n :=
  List.map_take ..

theorem frames_drop (st : List Cell) (n : Nat) : frames (st.drop n) = (frames st).drop n :=
  List.map_drop ..

theorem frames_reverse (st : List Cell) : frames st.reverse = (frames st).reverse :=
  List.map_reverse ..

/-- A reduction of cells is the reduction of their frames; without error marks nothing is repaired. -/
theorem reduce_frames {rule : Nat} {st : List Cell} (recovered : List Recovery)
    (hu : Unmarked (frames st)) :
    A.reduce rule ⟨frames st, recovered⟩
      = (A.reduceCells rule st).map fun next => ⟨frames next, recovered⟩ := by
  have hnone : ∀ n, ((frames st).take n).reverse.filterMap Frame.recovery? = [] := by
    intro n
    refine List.filterMap_eq_nil_iff.mpr fun f hf => recovery?_eq_none (hu f ?_)
    exact List.mem_of_mem_take (List.mem_reverse.mp hf)
  simp only [reduce, reduceCells, frames_reverse, frames_take, frames_drop, hnone,
    List.append_nil, Option.map_bind, Option.map_map, Function.comp_def, frames_cons]

theorem reduce_of_reduceCells {rule : Nat} {st st₁ : List Cell} (recovered : List Recovery)
    (hu : Unmarked (frames st)) (h : A.reduceCells rule st = some st₁) :
    A.reduce rule ⟨frames st, recovered⟩ = some ⟨frames st₁, recovered⟩ := by
  rw [reduce_frames recovered hu, h, Option.map_some]

theorem unmarked_reduceCells {rule : Nat} {st st₁ : List Cell} (hu : Unmarked (frames st))
    (h : A.reduceCells rule st = some st₁) : Unmarked (frames st₁) := by
  obtain ⟨r, v, state, _, _, _, rfl⟩ := reduceCells_eq_some.mp h
  intro f hf
  rw [frames_cons, frames_drop] at hf
  rcases List.mem_cons.mp hf with rfl | hf
  · exact nofun
  · exact hu f (List.mem_of_mem_drop hf)

theorem unmarked_shifted {state : Nat} {x : Token} {st : List Cell} (hu : Unmarked (frames st)) :
    Unmarked (frames (shifted state x :: st)) := by
  intro f hf
  rcases List.mem_cons.mp hf with rfl | hf
  · exact nofun
  · exact hu f hf

/-- Settling is a run that reads nothing. -/
theorem run_of_settleUpTo {n : Nat} {st : List Cell} {w : List Token} {c₁ : Config} {s : Settled}
    (hu : Unmarked (frames st)) (hl : A.Linked (frames st))
    (h : A.settleUpTo (ahead w) n ⟨frames st, []⟩ = (c₁, s)) :
    ∃ st₁, Run A st w st₁ w ∧ c₁ = ⟨frames st₁, []⟩ ∧ Unmarked (frames st₁) ∧
      A.Linked (frames st₁) := by
  induction n generalizing st with
  | zero => cases h; exact ⟨st, .refl _ _, rfl, hu, hl⟩
  | succ n ih =>
    simp only [settleUpTo] at h
    split at h
    · cases h; exact ⟨st, .refl _ _, rfl, hu, hl⟩
    · cases h; exact ⟨st, .refl _ _, rfl, hu, hl⟩
    · cases h; exact ⟨st, .refl _ _, rfl, hu, hl⟩
    · rename_i rule hmove
      split at h
      · rename_i next hnext
        have hl₁ := Linked.reduce (c := ⟨frames st, []⟩) hl hnext
        rw [reduce_frames [] hu] at hnext
        obtain ⟨st₁, hst₁, rfl⟩ := Option.map_eq_some_iff.mp hnext
        obtain ⟨st₂, hrun, hc, hu₂, hl₂⟩ := ih (unmarked_reduceCells hu hst₁) hl₁ h
        exact ⟨st₂, .step (advance_reduce hmove hst₁) hrun, hc, hu₂, hl₂⟩
      · cases h; exact ⟨st, .refl _ _, rfl, hu, hl⟩

/-- There is always time for one move. -/
theorem settle_eq (c : Config) : ∃ n, A.settle t c = A.settleUpTo t (n + 1) c :=
  ⟨64 * (c.stack.length + 3) + 63, rfl⟩

theorem settle_shift {c : Config} {state : Nat} (h : A.move (topState c.stack) t = .shift state) :
    A.settle t c = (c, .shift state) := by
  obtain ⟨n, hn⟩ := settle_eq (A := A) (t := t) c
  simp only [hn, settleUpTo, h]

theorem settle_accept {c : Config} (h : A.move (topState c.stack) t = .accept) :
    A.settle t c = (c, .accept) := by
  obtain ⟨n, hn⟩ := settle_eq (A := A) (t := t) c
  simp only [hn, settleUpTo, h]

theorem settle_fail {c : Config} (h : A.move (topState c.stack) t = .fail) :
    A.settle t c = (c, .stuck) := by
  obtain ⟨n, hn⟩ := settle_eq (A := A) (t := t) c
  simp only [hn, settleUpTo, h]

theorem settle_reduce_none {rule : Nat} {c : Config}
    (h : A.move (topState c.stack) t = .reduce rule) (hr : A.reduce rule c = none) :
    A.settle t c = (c, .stuck) := by
  obtain ⟨n, hn⟩ := settle_eq (A := A) (t := t) c
  simp only [hn, settleUpTo, h, hr]

/-- A run that reads nothing does not change where the automaton settles. -/
theorem Graded.settle_run (hA : A.Graded) {st st₁ : List Cell} {w w₁ : List Token}
    (recovered : List Recovery) (hu : Unmarked (frames st)) (hl : A.Linked (frames st))
    (h : Run A st w st₁ w₁) (hw : w₁ = w) :
    A.settle (ahead w) ⟨frames st, recovered⟩ = A.settle (ahead w) ⟨frames st₁, recovered⟩ := by
  induction h with
  | refl => rfl
  | @step st st₁ st₂ w w₁ w₂ hadv hrun ih =>
    rcases advance_cases hadv with ⟨t, state, rfl, _, _⟩ | ⟨rule, rfl, hmove, hnext⟩
    · have hlen := hrun.length_le
      rw [hw, List.length_cons] at hlen
      omega
    · have hred := reduce_of_reduceCells recovered hu hnext
      rw [hA.settle_reduce (c := ⟨frames st, recovered⟩) hl hmove hred]
      exact ih (unmarked_reduceCells hu hnext)
        (Linked.reduce (c := ⟨frames st, recovered⟩) hl hred) hw

def accepted (A : Automaton) (p : Program) (recovered : List Recovery) : Config :=
  ⟨[⟨A.accepting, .nonterminal .program, p⟩], recovered⟩

section
variable (p : Program) (recovered : List Recovery)

theorem settle_accepted :
    A.settle none (A.accepted p recovered) = (A.accepted p recovered, .accept) :=
  settle_accept (if_pos ⟨rfl, rfl⟩)

theorem finish_accepted (e : SyntaxError) :
    A.finish e (A.accepted p recovered) = ⟨.ok p, recovered⟩ := by
  unfold finish
  rw [settle_accepted]
  rfl

theorem atEnd_accepted (position line : Nat) :
    A.atEnd position line (A.accepted p recovered) = ⟨.ok p, recovered⟩ := by
  unfold atEnd
  rw [settle_accepted]
  exact finish_accepted p recovered _

end

/-- Without an error pending, only the place where the automaton settles matters. -/
theorem parseFrom_eq_of_settle {xs : List Lexeme} {position line : Nat} {c c₁ : Config}
    (h : A.settle (ahead (tokensOf xs)) c = A.settle (ahead (tokensOf xs)) c₁) :
    A.parseFrom xs position line none c = A.parseFrom xs position line none c₁ := by
  cases xs with
  | nil =>
    have h : A.settle none c = A.settle none c₁ := h
    simp only [parseFrom, atEnd, h]
  | cons x rest =>
    have h : A.settle (some x.token.terminal) c = A.settle (some x.token.terminal) c₁ := h
    simp only [parseFrom, h]

/-- An outcome without repairs comes from a run to an accepting state. -/
theorem Rooted.run_of_parseFrom (hA : A.Rooted) {xs : List Lexeme} {position line : Nat}
    {st : List Cell} {p : Program} (hu : Unmarked (frames st)) (hl : A.Linked (frames st))
    (h : A.parseFrom xs position line none ⟨frames st, []⟩ = .intact p) :
    ∃ d, Run A st (tokensOf xs) [⟨⟨A.accepting, .nonterminal .program, p⟩, d⟩] [] := by
  induction xs generalizing position line st with
  | nil =>
    cases hs : A.settle none ⟨frames st, []⟩ with
    | mk c₁ s =>
      obtain ⟨st₁, hrun, rfl, hu₁, hl₁⟩ := run_of_settleUpTo (w := []) hu hl hs
      simp only [parseFrom, atEnd, hs] at h
      cases s with
      | shift state => exact absurd h (hA.finishAfter_marked hl₁ p)
      | stuck => exact absurd h (hA.finishAfter_marked hl₁ p)
      | accept =>
        have hacc := (move_of_settleUpTo hs).2 rfl
        obtain ⟨q, hstack⟩ := hA.stack_of_accept hl₁ hacc
        obtain ⟨c, rfl, hc⟩ := List.map_eq_singleton_iff.mp hstack
        obtain ⟨f, d⟩ := c
        cases hc
        have h : A.finish _ (A.accepted q []) = .intact p := h
        rw [finish_accepted] at h
        cases h
        exact ⟨d, hrun⟩
  | cons x rest ih =>
    cases hs : A.settle (some x.token.terminal) ⟨frames st, []⟩ with
    | mk c₁ s =>
      obtain ⟨st₁, hrun, rfl, hu₁, hl₁⟩ := run_of_settleUpTo (w := tokensOf (x :: rest)) hu hl hs
      by_cases hshift : ∃ state, s = .shift state
      · obtain ⟨state, rfl⟩ := hshift
        have hmove := (move_of_settleUpTo hs).1 _ rfl
        rw [parseFrom_shift hs] at h
        obtain ⟨d, hrest⟩ := @ih _ _ (shifted state x.token :: st₁) (unmarked_shifted hu₁)
          (linked_shift (c := ⟨frames st₁, []⟩) hl₁ hmove) h
        exact ⟨d, hrun.trans (.step (advance_shift hmove) hrest)⟩
      · rw [parseFrom_stuck hs fun state h => hshift ⟨state, h⟩] at h
        exact absurd h (hA.parseAfter_marked hl₁ p)

/-- The parser goes where the run goes, and its list of repairs stays as it is. -/
theorem Graded.parseFrom_run (hA : A.Graded) {xs : List Lexeme} (position line : Nat)
    {st st₁ : List Cell} {w₁ : List Token} (recovered : List Recovery)
    (hu : Unmarked (frames st)) (hl : A.Linked (frames st))
    (h : Run A st (tokensOf xs) st₁ w₁) :
    Unmarked (frames st₁) ∧ A.Linked (frames st₁) ∧ ∃ ys position₁ line₁, tokensOf ys = w₁ ∧
      A.parseFrom xs position line none ⟨frames st, recovered⟩
        = A.parseFrom ys position₁ line₁ none ⟨frames st₁, recovered⟩ := by
  generalize hw : tokensOf xs = w at h
  induction h generalizing xs position line with
  | refl st w => exact ⟨hu, hl, xs, position, line, hw, rfl⟩
  | @step st st₁ st₂ w w₁ w₂ hadv hrun ih =>
    rcases advance_cases hadv with ⟨t, state, rfl, hmove, rfl⟩ | ⟨rule, rfl, hmove, hnext⟩
    · obtain ⟨x, rest, rfl, rfl, rfl⟩ := List.map_eq_cons_iff.mp hw
      rw [parseFrom_shift (settle_shift hmove)]
      exact ih _ _ (unmarked_shifted hu) (linked_shift (c := ⟨frames st, recovered⟩) hl hmove) rfl
    · have hred := reduce_of_reduceCells recovered hu hnext
      have hsettle := hA.settle_reduce (c := ⟨frames st, recovered⟩) hl hmove hred
      subst hw
      rw [parseFrom_eq_of_settle hsettle]
      exact ih _ _ (unmarked_reduceCells hu hnext)
        (Linked.reduce (c := ⟨frames st, recovered⟩) hl hred) rfl

/-- After a run to a program the outcome is that program, with the repairs made before. -/
theorem Graded.parseFrom_of_run (hA : A.Graded) {xs : List Lexeme} {position line : Nat}
    {st : List Cell} {p : Program} {d : Derivation} (recovered : List Recovery)
    (hu : Unmarked (frames st)) (hl : A.Linked (frames st))
    (h : Run A st (tokensOf xs) [⟨⟨A.accepting, .nonterminal .program, p⟩, d⟩] []) :
    A.parseFrom xs position line none ⟨frames st, recovered⟩ = ⟨.ok p, recovered⟩ := by
  obtain ⟨_, _, ys, position₁, line₁, hys, hparse⟩ :=
    hA.parseFrom_run position line recovered hu hl h
  cases List.map_eq_nil_iff.mp hys
  rw [hparse]
  exact atEnd_accepted p recovered position₁ line₁

section
variable {w : List Token} {p p' : Program} {d d' : Derivation}

/-- A derivation of a program is a run from the empty stack. -/
theorem Complete.run_of_derives (hC : A.Complete) (hR : A.Rooted)
    (h : Derives A.rules d (.nonterminal .program) w p) :
    Run A [] w [⟨⟨A.accepting, .nonterminal .program, p⟩, d⟩] [] := by
  have hmove : A.move A.accepting (ahead []) = .accept := if_pos ⟨rfl, rfl⟩
  have hrun := hC.finds h [] [] A.accepting hR.enter (by rw [hmove]; exact nofun)
  rwa [List.append_nil] at hrun

/-- **No two derivations of a program have the same tokens.** -/
theorem Complete.derives_unique (hC : A.Complete) (hR : A.Rooted)
    (h : Derives A.rules d (.nonterminal .program) w p)
    (h' : Derives A.rules d' (.nonterminal .program) w p') : d = d' ∧ p = p' := by
  have hend : ∀ q e, A.advance [⟨⟨A.accepting, .nonterminal .program, q⟩, e⟩] [] = none := by
    intro q e
    have hmove : A.move A.accepting none = .accept := if_pos ⟨rfl, rfl⟩
    simp only [advance, frames_cons, topState_cons, ahead_nil, hmove]
  have hsame := (hC.run_of_derives hR h).unique (hC.run_of_derives hR h') (hend p d) (hend p' d')
  cases hsame.1
  exact ⟨rfl, rfl⟩

/-- **A program comes out without repairs iff the tokens derive it.** -/
theorem parse_eq_intact_iff (hC : A.Complete) (hG : A.Graded) (hR : A.Rooted)
    {xs : List Lexeme} :
    A.parse xs = .intact p ↔ ∃ d, Derives A.rules d (.nonterminal .program) (tokensOf xs) p := by
  have hu : Unmarked (frames []) := nofun
  constructor
  · intro h
    obtain ⟨d, hrun⟩ := hR.run_of_parseFrom hu trivial h
    exact ⟨d, hrun.derives⟩
  · rintro ⟨d, hd⟩
    exact hG.parseFrom_of_run [] hu trivial (hC.run_of_derives hR hd)

end

end Automaton

set_option maxRecDepth 10000 in
theorem Grammar.automaton_rooted : Grammar.automaton.Rooted :=
  Automaton.rooted_of_check (by decide +kernel)

end PascalStack
