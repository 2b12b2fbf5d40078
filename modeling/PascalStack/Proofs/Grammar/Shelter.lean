import PascalStack.Proofs.Grammar.Accept

/-!
# The states in which a statement is read

Two conditions on the tables of an automaton, and what follows from them about a stack on which a statement
is being read: nothing below the place where the statement began is touched before the statement is complete,
and an error in it is repaired at that place.

* `Symbol.isOuter`        symbols that no statement has, outside of compound statements in it;
* `Automaton.Mendable`    where an item may stand an error mark may, and both are followed by the same tokens,
                          only `;` and `end`;
* `Automaton.Sheltered`   the states of statements, told from the others;
* `Automaton.innerStates`   a search for them;
* `Automaton.Within`      the stack holds nothing but parts of a statement above such a place;
* `Automaton.Within.reduce`, `Automaton.Within.settle`, `Automaton.Within.repair`   what a reduction, all
                          reductions before a lookahead, and a repair do there.
-/

namespace PascalStack

/-- Symbols that a statement has only within a compound statement in it, or not at all. -/
def Symbol.isOuter : Symbol → Bool
  | .error => true
  | .terminal t => t ∈ [.keyword .begin, .keyword .end, .punct .semicolon]
  | .nonterminal n =>
    n ∈ [.sequence, .item, .block, .functionDecl, .directive, .parameterSection, .varDecl]

/-- The lookaheads after an item. -/
def Terminal.endsItem (t : Option Terminal) : Prop :=
  t = some (.punct .semicolon) ∨ t = some (.keyword .end)

def itemEnds : Nat :=
  1 <<< lookaheadBit (some (.punct .semicolon)) ||| 1 <<< lookaheadBit (some (.keyword .end))

theorem endsItem_of_testBit {t : Option Terminal}
    (h : itemEnds.testBit (lookaheadBit t) = true) : Terminal.endsItem t := by
  unfold Terminal.endsItem
  cases t with
  | none => revert h; decide
  | some t =>
    cases t with
    | keyword k => cases k <;> revert h <;> decide
    | punct p => cases p <;> revert h <;> decide
    | identifier => revert h; decide
    | integer => revert h; decide
    | real => revert h; decide
    | string => revert h; decide

theorem endsItem_of_subset {set : Nat} {t : Option Terminal} (hs : set &&& itemEnds = set)
    (h : set.testBit (lookaheadBit t) = true) : Terminal.endsItem t := by
  rw [← hs, Nat.testBit_and, Bool.and_eq_true] at h
  exact endsItem_of_testBit h.2

/-- No token of a statement ends an item. -/
theorem not_endsItem {t : Terminal} (h : (Symbol.terminal t).isOuter = false) :
    ¬ Terminal.endsItem (some t) := by
  rintro (ht | ht) <;> cases ht <;> cases h

namespace Automaton

/-- Where an item may stand an error may be repaired, and only before the end of an item. -/
structure Mendable (A : Automaton) : Prop where
  repair : ∀ (p q rule : Nat) (r : Rule), A.rules[rule]? = some r → r.rhs = [.error] →
    A.goto? p r.lhs = some q →
      ∃ e, A.repair? p = some e ∧ ∀ t, A.move q t ≠ .fail → A.move e t = .reduce rule
  follow : ∀ (p e : Nat) (t : Option Terminal), A.repair? p = some e → A.move e t ≠ .fail →
    Terminal.endsItem t
  reduce : ∀ (p rule : Nat) (r : Rule) (t : Option Terminal), A.rules[rule]? = some r →
    r.lhs = .item → A.move p t = .reduce rule → Terminal.endsItem t

/-- The condition of `Mendable` on a row and a rule for an error mark. -/
def mendableAt (A : Automaton) (row : Row) (rule : Nat) (r : Rule) : Bool :=
  match row.gotos.lookup r.lhs with
  | none => true
  | some q =>
    match row.repair with
    | none => false
    | some e =>
      e ≠ A.accepting &&
        match A.rows[e]? with
        | none => false
        | some row => row.reducesOn rule (A.live q)

def checkMendable (A : Automaton) : Bool :=
  A.rows.toList.all fun row =>
    (A.rules.toList.zipIdx.all fun x => x.1.rhs ≠ [.error] || A.mendableAt row x.2 x.1) &&
    (row.repair.all fun e => A.live e &&& itemEnds = A.live e) &&
    row.reductions.all fun x =>
      (A.rules[x.1]?.map Rule.lhs) ≠ some .item || x.2 &&& itemEnds = x.2

theorem mendable_of_check {A : Automaton} (h : A.checkMendable = true) : A.Mendable := by
  simp only [checkMendable, List.all_eq_true, Bool.and_eq_true, Bool.or_eq_true,
    decide_eq_true_eq] at h
  refine ⟨fun p q rule r hr hrhs hq => ?_, fun p e t he hm => ?_, fun p rule r t hr hn hm => ?_⟩
  · obtain ⟨row, hrow, hgoto⟩ := goto?_eq_some hq
    have hrepair : A.repair? p = row.repair := by rw [repair?, hrow]; rfl
    have hat := ((h row (Array.mem_toList_iff.mpr (Array.mem_of_getElem? hrow))).1.1 _
      (mem_zipIdx_of_getElem? hr)).resolve_left fun hne => hne hrhs
    simp only [mendableAt, hgoto] at hat
    split at hat
    · cases hat
    · rename_i e he
      rw [Bool.and_eq_true, decide_eq_true_eq] at hat
      obtain ⟨hne, hat⟩ := hat
      refine ⟨e, hrepair.trans he, fun t ht => ?_⟩
      split at hat
      · cases hat
      · rename_i row' hrow'
        rw [move, if_neg (fun hacc => hne hacc.1), hrow']
        exact Row.move_of_reducesOn hat (live_of_move ht)
  · obtain ⟨row, hrow, hrepair⟩ := Option.bind_eq_some_iff.mp he
    have hat := (h row (Array.mem_toList_iff.mpr (Array.mem_of_getElem? hrow))).1.2
    rw [hrepair, Option.all_some, decide_eq_true_eq] at hat
    exact endsItem_of_subset hat (live_of_move hm)
  · obtain ⟨row, hrow, hm⟩ := row_of_move hm Move.noConfusion Move.noConfusion
    obtain ⟨set, hset, hbit⟩ := Row.reduction_of_move hm
    have hat := (h row (Array.mem_toList_iff.mpr (Array.mem_of_getElem? hrow))).2 _ hset
    refine endsItem_of_subset (hat.resolve_left fun hne => hne ?_) hbit
    rw [hr, Option.map_some, hn]

end Automaton

set_option maxRecDepth 10000 in
theorem Grammar.automaton_mendable : Grammar.automaton.Mendable :=
  Automaton.mendable_of_check (by decide +kernel)

/-! ## the states of statements -/

namespace Automaton

/-- An error may be repaired in this state. -/
def Opening (A : Automaton) (p : Nat) : Prop := (A.repair? p).isSome = true

/-- Which states are entered within a statement, outside of compound statements in it. -/
structure Sheltered (A : Automaton) (inner : Nat → Prop) : Prop where
  closed : ∀ (p q : Nat) (X : Symbol), inner p ∨ A.Opening p → A.after? p X = some q →
    X.isOuter = false → inner q
  outer : ∀ (p q : Nat) (n : Nonterminal), inner p ∨ A.Opening p → A.goto? p n = some q →
    (Symbol.nonterminal n).isOuter = true → n = .sequence ∨ n = .item ∧ A.Opening p
  separator : ∀ p, inner p ∨ A.Opening p → A.after? p (.terminal (.punct .semicolon)) = none
  plain : ∀ p, inner p → ¬ A.Opening p
  empty : ∀ (p rule : Nat) (r : Rule) (t : Option Terminal), A.Opening p → A.rules[rule]? = some r →
    A.move p t = .reduce rule → r.rhs = []
  enter : ∀ (p q : Nat) (X : Symbol), A.after? p X = some q → inner q → X.isOuter = false
  entrance : ∀ (p q : Nat) (X : Symbol), A.after? p X = some q → A.Opening q →
    X = .terminal (.keyword .begin) ∨ X = .terminal (.punct .semicolon)
  rest : ∀ (rule : Nat) (r : Rule) (a b : List Symbol) (X : Symbol), A.rules[rule]? = some r →
    r.rhs = a ++ X :: b → X = .terminal (.keyword .begin) ∨ X = .terminal (.punct .semicolon) →
      b ≠ [] → ∃ Y ∈ b, Y.isOuter = true
  list : ∀ (rule : Nat) (r : Rule), A.rules[rule]? = some r → r.lhs = .sequence →
    ∃ Y ∈ r.rhs, Y.isOuter = true

/-- Adds to a set of states those after them, and after the states that take a repair, by a symbol
of a statement. -/
def spread (A : Automaton) (set : Nat) : Nat :=
  A.rows.toList.zipIdx.foldr (fun x acc =>
    if set.testBit x.2 || x.1.repair.isSome then
      x.1.edges.foldr (fun e acc => if e.1.isOuter then acc else 1 <<< e.2 ||| acc) acc
    else acc) set

def spreadUpTo (A : Automaton) : (fuel : Nat) → Nat → Nat
  | 0, set => set
  | fuel + 1, set => if A.spread set = set then set else A.spreadUpTo fuel (A.spread set)

def innerStates (A : Automaton) : Nat := A.spreadUpTo A.rows.size 0

/-- A `begin`, or a `;`. -/
def opensItem (X : Symbol) : Bool :=
  X = .terminal (.keyword .begin) || X = .terminal (.punct .semicolon)

/-- After a `begin` or a `;`, what follows in a rule, if anything does, has an outer symbol. -/
def outerRest : List Symbol → Bool
  | [] => true
  | X :: b => (!opensItem X || b.isEmpty || b.any Symbol.isOuter) && outerRest b

/-- The condition of `Sheltered` on an edge from a state of a statement, or from one that takes a
repair. -/
def staysInside (set : Nat) (opening : Bool) (q : Nat) : Symbol → Bool
  | .terminal t =>
    t ≠ .punct .semicolon && ((Symbol.terminal t).isOuter || set.testBit q)
  | .nonterminal n =>
    if (Symbol.nonterminal n).isOuter then n = .sequence || (n = .item && opening)
    else set.testBit q
  | .error => true

def shelteredRow (A : Automaton) (set : Nat) (p : Nat) (row : Row) : Bool :=
  (row.edges.all fun e => (!set.testBit e.2 || !e.1.isOuter) &&
    (!(A.repair? e.2).isSome || opensItem e.1) &&
    (!(set.testBit p || row.repair.isSome) || staysInside set row.repair.isSome e.2 e.1)) &&
  (!set.testBit p || !row.repair.isSome) &&
  (!row.repair.isSome || row.reductions.all fun x => (A.rules[x.1]?.map Rule.rhs).all List.isEmpty)

def checkSheltered (A : Automaton) (set : Nat) : Bool :=
  (A.rows.toList.zipIdx.all fun x => A.shelteredRow set x.2 x.1) &&
    A.rules.toList.all fun r =>
      outerRest r.rhs && (r.lhs ≠ .sequence || r.rhs.any Symbol.isOuter)

theorem opensItem_iff {X : Symbol} : opensItem X = true ↔
    X = .terminal (.keyword .begin) ∨ X = .terminal (.punct .semicolon) := by
  simp only [opensItem, Bool.or_eq_true, decide_eq_true_eq]

theorem outer_of_outerRest {a b : List Symbol} {X : Symbol} (h : outerRest (a ++ X :: b) = true)
    (hX : opensItem X = true) (hb : b ≠ []) : ∃ Y ∈ b, Y.isOuter = true := by
  induction a with
  | nil =>
    simp only [List.nil_append, outerRest, hX, Bool.not_true, Bool.false_or, Bool.and_eq_true,
      Bool.or_eq_true, List.isEmpty_iff, List.any_eq_true] at h
    exact h.1.resolve_left hb
  | cons Z a ih =>
    rw [List.cons_append, outerRest, Bool.and_eq_true] at h
    exact ih h.2

section
variable {A : Automaton} {set : Nat}

/-- The conditions on a row, for the state of the row. -/
theorem sheltered_row (h : ∀ p row, A.rows[p]? = some row → A.shelteredRow set p row = true)
    {p : Nat} {row : Row} (hrow : A.rows[p]? = some row) :
    (A.Opening p ↔ row.repair.isSome = true) ∧
    (set.testBit p = true → ¬ A.Opening p) ∧
    (A.Opening p → ∀ x ∈ row.reductions, ∀ r, A.rules[x.1]? = some r → r.rhs = []) := by
  have hat := h p row hrow
  simp only [shelteredRow, Bool.and_eq_true, Bool.or_eq_true, Bool.not_eq_true',
    List.all_eq_true] at hat
  obtain ⟨⟨_, hplain⟩, hempty⟩ := hat
  have hopening : A.Opening p ↔ row.repair.isSome = true := by
    rw [Opening, repair?, hrow, Option.bind_some]
  refine ⟨hopening, fun hp ho => ?_, fun ho x hx r hr => ?_⟩
  · rw [hp, hopening.mp ho] at hplain
    simp at hplain
  · rw [hopening.mp ho] at hempty
    have hat := (hempty.resolve_left Bool.noConfusion) x hx
    rw [hr] at hat
    simpa using hat

/-- The conditions on a row, for an edge of the row. -/
theorem sheltered_edge (h : ∀ p row, A.rows[p]? = some row → A.shelteredRow set p row = true)
    {p q : Nat} {X : Symbol} (hq : A.after? p X = some q) :
    (set.testBit q = true → X.isOuter = false) ∧ (A.Opening q → opensItem X = true) ∧
    (set.testBit p = true ∨ A.Opening p →
      ∃ opening, (opening = true ↔ A.Opening p) ∧ staysInside set opening q X = true) := by
  obtain ⟨row, hrow, hmem⟩ := edge_of_after? hq
  obtain ⟨hopening, _⟩ := sheltered_row h hrow
  have hat := h p row hrow
  simp only [shelteredRow, Bool.and_eq_true, List.all_eq_true] at hat
  obtain ⟨⟨hin, hopen⟩, hstays⟩ := hat.1.1 _ hmem
  refine ⟨fun hq => ?_, fun ho => ?_, fun hp => ⟨_, hopening.symm, ?_⟩⟩
  · simpa [hq] using hin
  · rw [ho] at hopen
    exact hopen
  · rw [hopening, ← Bool.or_eq_true] at hp
    rw [hp] at hstays
    exact hstays

theorem sheltered_of_check (h : A.checkSheltered set = true) :
    A.Sheltered fun p => set.testBit p = true := by
  simp only [checkSheltered, Bool.and_eq_true, List.all_eq_true, Bool.or_eq_true,
    decide_eq_true_eq, List.any_eq_true] at h
  obtain ⟨hrows, hrules⟩ := h
  have hrows : ∀ p row, A.rows[p]? = some row → A.shelteredRow set p row = true :=
    fun p row hrow => hrows _ (mem_zipIdx_of_getElem? hrow)
  have hrules := fun (rule : Nat) (r : Rule) (hr : A.rules[rule]? = some r) =>
    hrules r (Array.mem_toList_iff.mpr (Array.mem_of_getElem? hr))
  constructor
  case closed =>
    intro p q X hp hq hX
    obtain ⟨opening, _, hat⟩ := (sheltered_edge hrows hq).2.2 hp
    cases X with
    | terminal t => simpa [staysInside, hX] using (Bool.and_eq_true_iff.mp hat).2
    | nonterminal n => simpa [staysInside, hX] using hat
    | error => cases hX
  case outer =>
    intro p q n hp hq hn
    have hq : A.after? p (.nonterminal n) = some q := hq
    obtain ⟨opening, hopening, hat⟩ := (sheltered_edge hrows hq).2.2 hp
    simpa [staysInside, hn, hopening] using hat
  case separator =>
    intro p hp
    refine Option.eq_none_iff_forall_ne_some.mpr fun q hq => ?_
    obtain ⟨opening, _, hat⟩ := (sheltered_edge hrows hq).2.2 hp
    simp [staysInside] at hat
  case plain =>
    intro p hp ho
    obtain ⟨e, he⟩ := Option.isSome_iff_exists.mp ho
    obtain ⟨row, hrow, _⟩ := Option.bind_eq_some_iff.mp he
    exact (sheltered_row hrows hrow).2.1 hp ho
  case empty =>
    intro p rule r t ho hr hm
    obtain ⟨row, hrow, hm⟩ := row_of_move hm Move.noConfusion Move.noConfusion
    obtain ⟨set, hset, _⟩ := Row.reduction_of_move hm
    exact (sheltered_row hrows hrow).2.2 ho _ hset r hr
  case enter =>
    intro p q X hq hin
    exact (sheltered_edge hrows hq).1 hin
  case entrance =>
    intro p q X hq ho
    exact opensItem_iff.mp ((sheltered_edge hrows hq).2.1 ho)
  case rest =>
    intro rule r a b X hr hrhs hX hb
    have hat := (hrules rule r hr).1
    rw [hrhs] at hat
    exact outer_of_outerRest hat (opensItem_iff.mpr hX) hb
  case list =>
    intro rule r hr hn
    exact (hrules rule r hr).2.resolve_left fun hne => hne hn

end

end Automaton

set_option maxRecDepth 10000 in
theorem Grammar.automaton_sheltered :
    Grammar.automaton.Sheltered fun p => Grammar.automaton.innerStates.testBit p = true :=
  Automaton.sheltered_of_check (by decide +kernel)

/-! ## reading parts of a statement -/

namespace Automaton

theorem Linked.of_append {A : Automaton} {a b : List Frame} (h : A.Linked (a ++ b)) :
    A.Linked b := by
  have hd := h.drop a.length
  rwa [List.drop_left] at hd

/-- A frame of a stack, and what the tables say about it. -/
theorem Linked.after_of_mem {A : Automaton} {stack : List Frame} (h : A.Linked stack) {f : Frame}
    (hf : f ∈ stack) : ∃ p, A.after? p f.symbol = some f.state := by
  induction stack with
  | nil => cases hf
  | cons g rest ih =>
    rcases List.mem_cons.mp hf with rfl | hf
    · exact ⟨_, h.1⟩
    · exact ih h.2 hf

/-- Above the frames `base`, at whose top a statement may begin, there are only frames of parts of a
statement. -/
structure Within (A : Automaton) (inner : Nat → Prop) (base extra : List Frame) : Prop where
  linked : A.Linked (extra ++ base)
  opening : A.Opening (topState base)
  states : ∀ f ∈ extra, inner f.state

section
variable {A : Automaton} {inner : Nat → Prop} {base extra : List Frame} {t : Option Terminal}
  {rule : Nat} {recovered : List Recovery} {c : Config}

theorem topState_append (extra base : List Frame) :
    topState (extra ++ base) = topState base ∧ extra = [] ∨
      ∃ f ∈ extra, topState (extra ++ base) = f.state := by
  cases extra with
  | nil => exact .inl ⟨rfl, rfl⟩
  | cons f extra => exact .inr ⟨f, List.mem_cons_self .., rfl⟩

theorem Within.top (h : A.Within inner base extra) :
    inner (topState (extra ++ base)) ∨ A.Opening (topState (extra ++ base)) := by
  rcases topState_append extra base with ⟨he, _⟩ | ⟨f, hf, he⟩
  · rw [he]
    exact .inr h.opening
  · rw [he]
    exact .inl (h.states f hf)

theorem Within.drop (h : A.Within inner base extra) (n : Nat) :
    A.Within inner base (extra.drop n) := by
  refine ⟨?_, h.opening, fun f hf => h.states f (List.mem_of_mem_drop hf)⟩
  have hl : A.Linked (extra.take n ++ (extra.drop n ++ base)) := by
    rw [← List.append_assoc, List.take_append_drop]
    exact h.linked
  exact hl.of_append

theorem Within.inner_symbols (hA : A.Sheltered inner) (h : A.Within inner base extra) :
    ∀ f ∈ extra, f.symbol.isOuter = false := by
  intro f hf
  obtain ⟨p, hp⟩ := h.linked.after_of_mem (List.mem_append_left base hf)
  exact hA.enter p _ _ hp (h.states f hf)

/-- A reduction takes no frame from below the place where the statement began. -/
theorem Within.length_le (hA : A.Sheltered inner) (h : A.Within inner base extra) {r : Rule}
    {v : r.lhs.Value} (hr : A.rules[rule]? = some r)
    (hm : A.move (topState (extra ++ base)) t = .reduce rule)
    (hfeed : feed r.rhs r.action ((extra ++ base).take r.rhs.length).reverse = some v) :
    r.rhs.length ≤ extra.length := by
  refine Nat.le_of_not_lt fun hlt => ?_
  have hsym := feed_symbols hfeed
  obtain ⟨k, hk⟩ : ∃ k, r.rhs.length = extra.length + (k + 1) :=
    ⟨r.rhs.length - extra.length - 1, by omega⟩
  rw [hk, List.take_length_add_append] at hsym
  cases base with
  | nil =>
    have hlen := congrArg List.length hsym
    simp only [List.take_nil, List.append_nil, List.length_map, List.length_reverse] at hlen
    omega
  | cons g base =>
    rw [List.take_succ_cons, List.reverse_append, List.reverse_cons, List.append_assoc,
      List.singleton_append, List.map_append, List.map_cons] at hsym
    have hg := hA.entrance _ _ _ h.linked.of_append.1 h.opening
    have hextra : extra.reverse.map Frame.symbol ≠ [] := by
      intro hnil
      rw [List.map_eq_nil_iff, List.reverse_eq_nil_iff] at hnil
      subst hnil
      rw [hA.empty _ rule r t h.opening hr hm] at hk
      simp at hk
    obtain ⟨Y, hY, houter⟩ := hA.rest rule r _ _ _ hr hsym.symm hg hextra
    obtain ⟨f, hf, rfl⟩ := List.mem_map.mp hY
    rw [h.inner_symbols hA f (List.mem_reverse.mp hf)] at houter
    cases houter

/-- A reduction leaves parts of a statement, or completes the statement; the latter only before the end of
an item. -/
theorem Within.reduce (hA : A.Sheltered inner) (hM : A.Mendable) (h : A.Within inner base extra)
    (hm : A.move (topState (extra ++ base)) t = .reduce rule)
    (hr : A.reduce rule ⟨extra ++ base, recovered⟩ = some c) :
    (∃ extra', c = ⟨extra' ++ base, recovered⟩ ∧ A.Within inner base extra') ∨
      Terminal.endsItem t ∧ ∃ q i, A.goto? (topState base) .item = some q ∧
        c = ⟨⟨q, .nonterminal .item, i⟩ :: base, recovered⟩ := by
  have hlinked := Linked.reduce (c := ⟨extra ++ base, recovered⟩) h.linked hr
  obtain ⟨r, v, state, hrule, hfeed, hgoto, rfl⟩ := reduce_eq_some.mp hr
  have hle := h.length_le hA hrule hm hfeed
  simp only [List.take_append_of_le_length hle, List.drop_append_of_le_length hle]
    at hfeed hgoto hlinked ⊢
  have hinner : ∀ X ∈ r.rhs, X.isOuter = false := by
    intro X hX
    rw [← feed_symbols hfeed] at hX
    obtain ⟨f, hf, rfl⟩ := List.mem_map.mp hX
    exact h.inner_symbols hA f (List.mem_of_mem_take (List.mem_reverse.mp hf))
  have hnone : (extra.take r.rhs.length).reverse.filterMap Frame.recovery? = [] := by
    refine List.filterMap_eq_nil_iff.mpr fun f hf => recovery?_eq_none fun he => ?_
    have hf := h.inner_symbols hA f (List.mem_of_mem_take (List.mem_reverse.mp hf))
    rw [he] at hf
    cases hf
  rw [hnone, List.append_nil]
  have hrest := h.drop r.rhs.length
  cases houter : (Symbol.nonterminal r.lhs).isOuter with
  | false =>
    refine .inl ⟨⟨state, .nonterminal r.lhs, v⟩ :: extra.drop r.rhs.length, rfl, hlinked, h.opening, ?_⟩
    intro f hf
    rcases List.mem_cons.mp hf with rfl | hf
    · exact hA.closed _ _ (.nonterminal r.lhs) hrest.top hgoto houter
    · exact hrest.states f hf
  | true =>
    rcases hA.outer _ _ _ hrest.top hgoto houter with hn | ⟨hn, hopen⟩
    · obtain ⟨Y, hY, hYouter⟩ := hA.list rule r hrule hn
      rw [hinner Y hY] at hYouter
      cases hYouter
    · -- only at the place itself can an item stand, so nothing is left above it
      have hnil : extra.drop r.rhs.length = [] := by
        rcases topState_append (extra.drop r.rhs.length) base with ⟨_, hnil⟩ | ⟨f, hf, he⟩
        · exact hnil
        · rw [he] at hopen
          exact absurd hopen (hA.plain _ (hrest.states f hf))
      rw [hnil, List.nil_append] at hgoto ⊢
      refine .inr ⟨hM.reduce _ rule r t hrule hn hm, ?_⟩
      obtain ⟨lhs, rhs, action⟩ := r
      cases hn
      exact ⟨state, v, hgoto, rfl⟩

/-- Where the automaton settles, there are still only parts of a statement, or a whole statement before the
end of an item. -/
theorem Within.settle (hA : A.Sheltered inner) (hM : A.Mendable) (hG : A.Graded)
    (h : A.Within inner base extra) (recovered : List Recovery) (t : Option Terminal) :
    (∃ extra' s, A.settle t ⟨extra ++ base, recovered⟩ = (⟨extra' ++ base, recovered⟩, s) ∧
      A.Within inner base extra') ∨
    Terminal.endsItem t ∧ ∃ q i, A.goto? (topState base) .item = some q ∧
      A.settle t ⟨extra ++ base, recovered⟩
        = A.settle t ⟨⟨q, .nonterminal .item, i⟩ :: base, recovered⟩ := by
  induction hn : potential (extra ++ base) using Nat.strongRecOn generalizing extra with
  | ind n ih =>
    cases hm : A.move (topState (extra ++ base)) t with
    | shift state =>
      exact .inl ⟨extra, _, settle_shift (c := ⟨extra ++ base, recovered⟩) hm, h⟩
    | accept =>
      exact .inl ⟨extra, _, settle_accept (c := ⟨extra ++ base, recovered⟩) hm, h⟩
    | fail =>
      exact .inl ⟨extra, _, settle_fail (c := ⟨extra ++ base, recovered⟩) hm, h⟩
    | reduce rule =>
      cases hr : A.reduce rule ⟨extra ++ base, recovered⟩ with
      | none =>
        exact .inl ⟨extra, _, settle_reduce_none (c := ⟨extra ++ base, recovered⟩) hm hr, h⟩
      | some c =>
        have hlt := hG.potential_lt (c := ⟨extra ++ base, recovered⟩) h.linked hm hr
        have hsettle := hG.settle_reduce (c := ⟨extra ++ base, recovered⟩) h.linked hm hr
        rw [hsettle]
        rcases h.reduce hA hM hm hr with ⟨extra', rfl, h'⟩ | ⟨ht, q, i, hq, rfl⟩
        · exact ih _ (hn ▸ hlt) h' rfl
        · exact .inr ⟨ht, q, i, hq, rfl⟩

/-! ## the repair -/

/-- The states after a reduction. -/
theorem reduceStates_of_reduce {c c₁ : Config} (h : A.reduce rule c = some c₁) :
    A.reduceStates rule (c.stack.map Frame.state) = some (c₁.stack.map Frame.state) := by
  obtain ⟨r, v, q, hr, _, hq, rfl⟩ := reduce_eq_some.mp h
  rw [topState, List.map_drop] at hq
  simp only [reduceStates, hr, Option.bind_some, hq, Option.map_some, List.map_cons, List.map_drop]

theorem leads_of_settleUpTo {n state : Nat} {c c₁ : Config}
    (h : A.settleUpTo t n c = (c₁, .shift state)) :
    A.leadsUpTo t n (c.stack.map Frame.state) = true := by
  induction n generalizing c with
  | zero => cases h
  | succ n ih =>
    simp only [settleUpTo] at h
    split at h
    · rename_i hm
      have hm : A.move ((c.stack.map Frame.state).headD 0) t = _ := hm
      simp only [leadsUpTo, hm]
    · cases h
    · cases h
    · rename_i rule hm
      have hm : A.move ((c.stack.map Frame.state).headD 0) t = .reduce rule := hm
      split at h
      · rename_i next hnext
        simp only [leadsUpTo, hm, reduceStates_of_reduce hnext]
        exact ih h
      · cases h

theorem leads_fail {states : List Nat} (h : A.move (states.headD 0) t = .fail) :
    A.leads t states = false := by
  have hn : A.leads t states = A.leadsUpTo t (64 * (states.length + 3) + 63 + 1) states := rfl
  simp only [hn, leadsUpTo, h]

theorem Mendable.repair_none (hM : A.Mendable) (ht : ¬ Terminal.endsItem t) (r : Recovery)
    (stack : List Frame) : A.repair t r stack = none := by
  have hhere : ∀ stack, A.repairHere t r stack = none := by
    intro stack
    cases he : A.repair? (topState stack) with
    | none => simp only [repairHere, he, Option.bind_none]
    | some e =>
      have hfail : A.move e t = .fail := Classical.byContradiction fun hm =>
        ht (hM.follow _ e t he hm)
      simp only [repairHere, he, Option.bind_some]
      rw [leads_fail hfail]
      rfl
  induction stack with
  | nil => exact hhere []
  | cons f rest ih =>
    simp only [Automaton.repair, hhere]
    exact ih

/-- The stack is cut back to the place where the statement began. -/
theorem Within.repair (hA : A.Sheltered inner) (h : A.Within inner base extra) {r : Recovery}
    {stack : List Frame} (hbase : A.repairHere t r base = some stack) :
    A.repair t r (extra ++ base) = some stack := by
  induction extra with
  | nil =>
    rw [List.nil_append]
    cases base with
    | nil => exact hbase
    | cons f rest => simp only [Automaton.repair, hbase]
  | cons f extra ih =>
    have hnone : A.repair? f.state = none := by
      have hplain := hA.plain _ (h.states f (List.mem_cons_self ..))
      rwa [Opening, Option.not_isSome_iff_eq_none] at hplain
    have hhere : A.repairHere t r (f :: (extra ++ base)) = none := by
      simp only [repairHere, topState_cons, hnone, Option.bind_none]
    simp only [List.cons_append, Automaton.repair, hhere]
    exact ih (h.drop 1)

end

end Automaton

end PascalStack
