import PascalStack.Proofs.Grammar.Complete

/-!
# The places where a statement may begin

Right after a `begin`, and right after a `;` between two statements, one more statement may be put in.
Here it is shown where the automaton stands at such a place, and that it goes on from there with any
statements put in before.

* `Derivation.tokens`, `Derivation.Gap`   the places, in a derivation;
* `Automaton.Slot`       the stack at such a place: what lies under the list of statements, and the states
                         after the list and after a `;`;
* `Automaton.Slot.resume`   the stack after a list of statements and a `;`;
* `Automaton.FindsGap`   the run up to the place, whatever follows, and the run from there on, with any
                         list of statements in place of the one found;
* `Grammar.findsGap`     it holds of every place of a derivation;
* `Grammar.gap_of_begin`   there is such a place after every `begin`.
-/

namespace PascalStack

mutual

def Derivation.tokens : Derivation → List Token
  | .leaf t => [t]
  | .node _ parts => Derivation.tokensAll parts

def Derivation.tokensAll : List Derivation → List Token
  | [] => []
  | d :: ds => d.tokens ++ Derivation.tokensAll ds

end

/-- The tokens `u` end with a `begin`, or with a `;` that separates two statements of a compound
statement; the tokens `v` are those that follow. -/
inductive Derivation.Gap (rules : Array Rule) : Derivation → (u v : List Token) → Prop
  | first {rule : Nat} {r : Rule} {s e : Derivation} :
      rules[rule]? = some r → r.lhs = .compound →
        Gap rules (.node rule [.leaf (.keyword .begin), s, e]) [.keyword .begin]
          (s.tokens ++ e.tokens)
  | next {rule : Nat} {r : Rule} {s i : Derivation} :
      rules[rule]? = some r → r.lhs = .sequence →
        Gap rules (.node rule [s, .leaf (.punct .semicolon), i]) (s.tokens ++ [.punct .semicolon])
          i.tokens
  | inside {rule : Nat} {before after : List Derivation} {d : Derivation} {u v : List Token} :
      Gap rules d u v →
        Gap rules (.node rule (before ++ d :: after)) (Derivation.tokensAll before ++ u)
          (v ++ Derivation.tokensAll after)

section
variable {rules : Array Rule}

theorem Derives.tokens_eq {d : Derivation} {X : Symbol} {w : List Token} {x : X.Value}
    (h : Derives rules d X w x) : d.tokens = w := by
  refine @Derives.rec rules (fun d _ w _ _ => d.tokens = w)
    (fun ds _ w _ _ _ _ => Derivation.tokensAll ds = w) ?_ ?_ ?_ ?_ d X w x h
  · exact fun _ => rfl
  · exact fun _ _ ih => ih
  · exact fun _ => rfl
  · intro R d ds X Xs u w x f a _ _ ihd ihds
    rw [Derivation.tokensAll, ihd, ihds]

theorem DerivesAll.tokensAll_eq {R : Type} {ds : List Derivation} {Xs : List Symbol}
    {w : List Token} {f : Action Xs R} {a : R} (h : DerivesAll rules ds Xs w f a) :
    Derivation.tokensAll ds = w := by
  induction ds generalizing Xs w with
  | nil => cases h; rfl
  | cons d ds ih =>
    cases h with
    | cons hd hds => rw [Derivation.tokensAll, hd.tokens_eq, ih hds]

theorem Derivation.Gap.ne_nil {d : Derivation} {u v : List Token} (h : d.Gap rules u v) :
    u ≠ [] := by
  induction h with
  | first _ _ => exact List.cons_ne_nil _ _
  | next _ _ => exact List.append_ne_nil_of_right_ne_nil _ (List.cons_ne_nil _ _)
  | inside _ ih => exact List.append_ne_nil_of_right_ne_nil _ ih

/-- The rule at the root of a derivation of a phrase. -/
theorem Derives.root {d : Derivation} {n : Nonterminal} {w : List Token} {x : n.Value}
    (h : Derives rules d (.nonterminal n) w x) :
    ∃ rule ds rhs action, d = .node rule ds ∧ rules[rule]? = some ⟨n, rhs, action⟩ ∧
      DerivesAll rules ds rhs w action x := by
  cases h with
  | @node rule r ds _ _ hr hds => exact ⟨rule, ds, r.rhs, r.action, rfl, hr, hds⟩

/-- The derivations of the first symbol and of the others. -/
theorem DerivesAll.uncons {R : Type} {ds : List Derivation} {X : Symbol} {Xs : List Symbol}
    {w : List Token} {f : X.Value → Action Xs R} {a : R}
    (h : DerivesAll rules ds (X :: Xs) w (R := R) f a) :
    ∃ d ds' u w' x, ds = d :: ds' ∧ w = u ++ w' ∧ Derives rules d X u x ∧
      DerivesAll rules ds' Xs w' (f x) a := by
  cases h with
  | cons hd hds => exact ⟨_, _, _, _, _, rfl, rfl, hd, hds⟩

/-- The derivations of the symbols on the right of a rule do not depend on its action. -/
theorem DerivesAll.apply {R : Type} {ds : List Derivation} {Xs : List Symbol} {w : List Token}
    {f : Action Xs R} {a : R} (h : DerivesAll rules ds Xs w f a) :
    ∃ apply : Action Xs R → R, apply f = a ∧ ∀ g, DerivesAll rules ds Xs w g (apply g) := by
  induction Xs generalizing ds w with
  | nil =>
    cases h
    exact ⟨id, rfl, fun g => .nil g⟩
  | cons X Xs ih =>
    obtain ⟨d, ds, u, w, x, rfl, rfl, hd, hds⟩ := h.uncons
    obtain ⟨apply, hf, hg⟩ := ih hds
    exact ⟨fun g => apply (g x), hf, fun g => .cons hd (hg (g x))⟩

theorem derives_punct {d : Derivation} {m : Punct} {w : List Token} {x : Unit}
    (h : Derives rules d (.terminal (.punct m)) w x) : d = .leaf (.punct m) ∧ w = [.punct m] := by
  have hleaf : ∀ X (x : Symbol.Value X), Derives rules d X w x → X = .terminal (.punct m) →
      d = .leaf (.punct m) ∧ w = [.punct m] := by
    intro X x h hX
    cases h with
    | leaf t => cases t <;> cases hX; exact ⟨rfl, rfl⟩
    | node _ _ => cases hX
  exact hleaf _ x h rfl

end

namespace Automaton

/-- Where a list of statements may stand, and the list may be followed by a `;`. -/
structure Slot (A : Automaton) where
  under : List Cell
  listed : Nat
  separated : Nat
  goto : A.goto? (topState (frames under)) .sequence = some listed
  shift : A.move listed (some (.punct .semicolon)) = .shift separated

variable {A : Automaton}

/-- The stack after a list of statements and a `;`. -/
def Slot.resume (s : A.Slot) (ss : List Stmt) (d : Derivation) : List Cell :=
  shifted s.separated (.punct .semicolon) :: ⟨⟨s.listed, .nonterminal .sequence, ss⟩, d⟩ :: s.under

/-- The stacks at which the next statement of the list begins, with the statements before it. -/
inductive Slot.Open (s : A.Slot) : List Stmt → List Cell → Prop
  | first : s.Open [] s.under
  | next (ss : List Stmt) (d : Derivation) : s.Open ss (s.resume ss d)

/-- The run of a derivation of a symbol stops at a place in it, whatever comes after the tokens `u`
before the place.  If a list of statements `ss` stands before the place in the end, the run over the
tokens `v` leads to the symbol with the value `fill ss`. -/
def FindsGap (A : Automaton) (X : Symbol) (u v : List Token) (x : X.Value) : Prop :=
  ∀ st q, A.after? (topState (frames st)) X = some q →
    ∃ (s : A.Slot) (done : List Stmt) (base : List Cell) (fill : List Stmt → X.Value),
      s.Open done base ∧ fill done = x ∧ (∀ w, Run A st (u ++ w) base w) ∧
      ∀ ss d rest, A.move q (ahead rest) ≠ .fail →
        ∃ tree, Run A (s.resume ss d) (v ++ rest) (⟨⟨q, X, fill ss⟩, tree⟩ :: st) rest

def FindsGapAll (A : Automaton) (Xs : List Symbol) (u v : List Token) {R : Type} (f : Action Xs R)
    (a : R) : Prop :=
  ∀ st q, A.path? (topState (frames st)) Xs = some q →
    ∃ (s : A.Slot) (done : List Stmt) (base : List Cell) (fill : List Stmt → R),
      s.Open done base ∧ fill done = a ∧ (∀ w, Run A st (u ++ w) base w) ∧
      ∀ ss d rest, A.move q (ahead rest) ≠ .fail →
        ∃ cs : List Cell, feed Xs f (frames cs) = some (fill ss) ∧
          topState (frames (cs.reverse ++ st)) = q ∧
          Run A (s.resume ss d) (v ++ rest) (cs.reverse ++ st) rest

section
variable {R : Type} {d : Derivation} {ds : List Derivation} {X : Symbol} {Xs : List Symbol}
  {u v w : List Token} {x : X.Value} {f : X.Value → Action Xs R} {a : R}

/-- The place is in the first symbol.  What the symbols after it derive does not change with the value
of the first. -/
theorem findsGapAll_here (hC : A.Complete) (hd : A.FindsGap X u v x)
    (hds : DerivesAll A.rules ds Xs w (f x) a) :
    A.FindsGapAll (X :: Xs) u (v ++ w) (R := R) f a := by
  intro st q hq
  obtain ⟨p, hp, hq⟩ := Option.bind_eq_some_iff.mp hq
  obtain ⟨s, done, base, fill, hopen, rfl, hreach, hresume⟩ := hd st p hp
  obtain ⟨apply, rfl, happly⟩ := hds.apply
  refine ⟨s, done, base, fun ss => apply (f (fill ss)), hopen, rfl, hreach, fun ss t rest hrest => ?_⟩
  have hfind := hC.findsAll (happly (f (fill ss)))
  obtain ⟨tree, hfirst⟩ := hresume ss t (w ++ rest)
    (hfind.live (⟨⟨p, X, fill ss⟩, .leaf (.punct .semicolon)⟩ :: st) hq hrest)
  obtain ⟨cs, _, hfeed, htop, hrun⟩ := hfind (⟨⟨p, X, fill ss⟩, tree⟩ :: st) rest q hq hrest
  refine ⟨⟨⟨p, X, fill ss⟩, tree⟩ :: cs, ?_, ?_, ?_⟩
  · rw [frames_cons, feed_cons, hfeed]
  · rw [List.reverse_cons, List.append_assoc]
    exact htop
  · rw [List.reverse_cons, List.append_assoc, List.append_assoc]
    exact hfirst.trans hrun

/-- The place is in a later symbol.  The first symbol need only be found where the tokens `u` follow; if
there are none, whatever follows. -/
theorem findsGapAll_later
    (hd : ∀ st rest p, A.after? (topState (frames st)) X = some p →
      (u ≠ [] → A.move p (ahead (u ++ rest)) ≠ .fail) →
        Run A st (w ++ (u ++ rest)) (⟨⟨p, X, x⟩, d⟩ :: st) (u ++ rest))
    (hds : A.FindsGapAll Xs u v (f x) a) : A.FindsGapAll (X :: Xs) (w ++ u) v (R := R) f a := by
  intro st q hq
  obtain ⟨p, hp, hq⟩ := Option.bind_eq_some_iff.mp hq
  obtain ⟨s, done, base, fill, hopen, hfill, hreach, hresume⟩ := hds (⟨⟨p, X, x⟩, d⟩ :: st) q hq
  refine ⟨s, done, base, fill, hopen, hfill, fun rest => ?_, fun ss t rest hrest => ?_⟩
  · rw [List.append_assoc]
    refine (hd st rest p hp fun hu => ?_).trans (hreach rest)
    refine (hreach rest).moves.resolve_left fun h => hu ?_
    exact List.append_left_eq_self.mp h.2.symm
  · obtain ⟨cs, hfeed, htop, hrun⟩ := hresume ss t rest hrest
    refine ⟨⟨⟨p, X, x⟩, d⟩ :: cs, ?_, ?_, ?_⟩
    · rw [frames_cons, feed_cons, hfeed]
    · rw [List.reverse_cons, List.append_assoc]
      exact htop
    · rw [List.reverse_cons, List.append_assoc]
      exact hrun

theorem findsGap_node (hC : A.Complete) {rule : Nat} {r : Rule} {y : r.lhs.Value}
    (hr : A.rules[rule]? = some r) (he : .error ∉ r.rhs)
    (hds : A.FindsGapAll r.rhs u v r.action y) : A.FindsGap (.nonterminal r.lhs) u v y := by
  intro st q hq
  obtain ⟨last, hpath, hlast⟩ := hC _ q rule r hr hq he
  obtain ⟨s, done, base, fill, hopen, hfill, hreach, hresume⟩ := hds st last hpath
  refine ⟨s, done, base, fill, hopen, hfill, hreach, fun ss t rest hrest => ?_⟩
  have hred := hlast _ hrest
  obtain ⟨cs, hfeed, htop, hrun⟩ := hresume ss t rest (by rw [hred]; exact nofun)
  rw [← htop] at hred
  exact ⟨_, hrun.trans (run_reduce st cs hr hq hfeed hred)⟩

end

end Automaton

/-! ## lists of statements -/

namespace Grammar
open Automaton

def compoundRule : Rule :=
  ⟨.compound, [word .begin, phrase .sequence, word .end], fun _ ss _ => ss⟩

/-- A list of one statement. -/
def startRule : Rule := ⟨.sequence, [phrase .item], fun s => s.toList⟩

/-- A list with one statement more. -/
def joinRule : Rule :=
  ⟨.sequence, [phrase .sequence, mark .semicolon, phrase .item], fun ss _ s => ss ++ s.toList⟩

theorem rules_compound : rules.toList.filter (fun r => r.lhs = .compound) = [compoundRule] := rfl

theorem rules_sequence :
    rules.toList.filter (fun r => r.lhs = .sequence) = [startRule, joinRule] := rfl

theorem mem_filter_rules {rule : Nat} {r : Rule} {n : Nonterminal} (hr : rules[rule]? = some r)
    (hn : r.lhs = n) : r ∈ rules.toList.filter fun r => r.lhs = n :=
  List.mem_filter.mpr
    ⟨Array.mem_toList_iff.mpr (Array.mem_of_getElem? hr), decide_eq_true hn⟩

theorem eq_compoundRule {rule : Nat} {r : Rule} (hr : rules[rule]? = some r)
    (hn : r.lhs = .compound) : r = compoundRule := by
  have h := mem_filter_rules hr hn
  rw [rules_compound] at h
  exact List.mem_singleton.mp h

theorem eq_startRule_or_joinRule {rule : Nat} {r : Rule} (hr : rules[rule]? = some r)
    (hn : r.lhs = .sequence) : r = startRule ∨ r = joinRule := by
  have h := mem_filter_rules hr hn
  rw [rules_sequence] at h
  simpa only [List.mem_cons, List.not_mem_nil, or_false] using h

theorem exists_rule {r : Rule} (h : r = startRule ∨ r = joinRule) :
    ∃ rule : Nat, rules[rule]? = some r := by
  have h : r ∈ rules.toList.filter fun r => r.lhs = .sequence := by
    rw [rules_sequence]
    simpa only [List.mem_cons, List.not_mem_nil, or_false] using h
  exact Array.getElem?_of_mem (Array.mem_toList_iff.mp (List.mem_filter.mp h).1)

/-- Induction along a list of statements, which grows on the right. -/
theorem sequence_induction {P : List Token → List Stmt → Prop}
    (one : ∀ {i w} {y : Option Stmt}, Derives rules i (.nonterminal .item) w y → P w y.toList)
    (more : ∀ {u ss w} {y : Option Stmt} {i}, P u ss → Derives rules i (.nonterminal .item) w y →
      P (u ++ .punct .semicolon :: w) (ss ++ y.toList))
    {d : Derivation} {w : List Token} {ss : List Stmt}
    (h : Derives rules d (.nonterminal .sequence) w ss) : P w ss := by
  induction hn : sizeOf d using Nat.strongRecOn generalizing d w ss with
  | ind n ih =>
    obtain ⟨rule, ds, rhs, action, rfl, hr, hds⟩ := h.root
    rcases eq_startRule_or_joinRule hr rfl with he | he
    · cases he
      obtain ⟨i, _, u, _, y, rfl, rfl, hi, hnil⟩ := hds.uncons
      cases hnil
      rw [List.append_nil]
      exact one hi
    · cases he
      obtain ⟨d₁, _, u₁, _, ss₁, rfl, rfl, hs, hds⟩ := hds.uncons
      obtain ⟨m, _, _, _, _, rfl, rfl, hm, hds⟩ := hds.uncons
      obtain ⟨i, _, u₂, _, y, rfl, rfl, hi, hnil⟩ := hds.uncons
      cases hnil
      obtain ⟨rfl, rfl⟩ := derives_punct hm
      rw [List.append_nil]
      refine more (ih (sizeOf d₁) ?_ hs rfl) hi
      rw [← hn, Derivation.node.sizeOf_spec, List.cons.sizeOf_spec]
      omega

/-- Where a list of statements stands, a `;` and one statement more may follow. -/
theorem joins {p q : Nat} (h : automaton.goto? p .sequence = some q) :
    ∃ next last rule, automaton.move q (some (.punct .semicolon)) = .shift next ∧
      automaton.goto? next .item = some last ∧ rules[rule]? = some joinRule ∧
      ∀ t, automaton.move q t ≠ .fail → automaton.move last t = .reduce rule := by
  obtain ⟨rule, hr⟩ := exists_rule (.inr rfl)
  obtain ⟨last, hpath, hlast⟩ := automaton_complete p q rule joinRule hr h (by decide)
  obtain ⟨q', hq', hpath⟩ := Option.bind_eq_some_iff.mp hpath
  obtain ⟨next, hnext, hpath⟩ := Option.bind_eq_some_iff.mp hpath
  obtain ⟨last', hlast', hend⟩ := Option.bind_eq_some_iff.mp hpath
  cases hq'.symm.trans h
  cases hend
  exact ⟨next, last, rule, after?_terminal hnext, hlast', hr, hlast⟩

theorem exists_slot {st : List Cell} {q : Nat}
    (h : automaton.goto? (topState (frames st)) .sequence = some q) :
    ∃ s : automaton.Slot, s.under = st ∧ s.listed = q := by
  obtain ⟨next, _, _, hnext, _⟩ := joins h
  exact ⟨⟨st, q, next, h, hnext⟩, rfl, rfl⟩

section
variable (s : automaton.Slot)

/-- After a list of statements and a `;` one statement more may stand, and is added to the list. -/
theorem run_join : ∃ q, automaton.goto? s.separated .item = some q ∧
    ∀ rest, automaton.move s.listed (ahead rest) ≠ .fail → automaton.move q (ahead rest) ≠ .fail ∧
      ∀ (i : Option Stmt) ss d t, ∃ tree,
        Run automaton (⟨⟨q, .nonterminal .item, i⟩, t⟩ :: s.resume ss d) rest
          (⟨⟨s.listed, .nonterminal .sequence, ss ++ i.toList⟩, tree⟩ :: s.under) rest := by
  obtain ⟨next, last, rule, hnext, hlast, hr, hmove⟩ := joins s.goto
  rw [s.shift] at hnext
  cases hnext
  refine ⟨last, hlast, fun rest hrest => ?_⟩
  have hred := hmove _ hrest
  refine ⟨by rw [hred]; exact nofun, fun i ss d t => ⟨_, run_reduce (r := joinRule) s.under
    [⟨⟨s.listed, .nonterminal .sequence, ss⟩, d⟩, shifted s.separated (.punct .semicolon),
      ⟨⟨last, .nonterminal .item, i⟩, t⟩] hr s.goto rfl hred⟩⟩

/-- A `;` after the list. -/
theorem run_separator (ss : List Stmt) (t : Derivation) (rest : List Token) :
    Run automaton (⟨⟨s.listed, .nonterminal .sequence, ss⟩, t⟩ :: s.under)
      (.punct .semicolon :: rest) (s.resume ss t) rest :=
  .single (advance_shift (t := .punct .semicolon) s.shift)

theorem live_separator (rest : List Token) :
    automaton.move s.listed (ahead (.punct .semicolon :: rest)) ≠ .fail := by
  have h : automaton.move s.listed (ahead (.punct .semicolon :: rest)) = .shift s.separated := s.shift
  rw [h]
  exact nofun

/-- A statement that follows the list and a `;`. -/
theorem run_item {i : Derivation} {w : List Token} {y : Option Stmt}
    (hi : Derives rules i (.nonterminal .item) w y) (ss : List Stmt) (t : Derivation)
    (rest : List Token) (hrest : automaton.move s.listed (ahead rest) ≠ .fail) :
    ∃ tree, Run automaton (s.resume ss t) (w ++ rest)
      (⟨⟨s.listed, .nonterminal .sequence, ss ++ y.toList⟩, tree⟩ :: s.under) rest := by
  obtain ⟨q, hq, hjoin⟩ := run_join s
  obtain ⟨hlive, hjoin⟩ := hjoin rest hrest
  have hrun := automaton_complete.finds hi (s.resume ss t) rest q hq hlive
  obtain ⟨tree, hjoin⟩ := hjoin y ss t i
  exact ⟨tree, hrun.trans hjoin⟩

/-- The statements of a list that follow another list and a `;` are added to it one by one. -/
theorem run_sequence {d : Derivation} {w : List Token} {ss' : List Stmt}
    (h : Derives rules d (.nonterminal .sequence) w ss') (ss : List Stmt) (t : Derivation)
    (rest : List Token) (hrest : automaton.move s.listed (ahead rest) ≠ .fail) :
    ∃ tree, Run automaton (s.resume ss t) (w ++ rest)
      (⟨⟨s.listed, .nonterminal .sequence, ss ++ ss'⟩, tree⟩ :: s.under) rest := by
  refine sequence_induction (P := fun w ss' => ∀ rest,
    automaton.move s.listed (ahead rest) ≠ .fail → ∃ tree, Run automaton (s.resume ss t) (w ++ rest)
      (⟨⟨s.listed, .nonterminal .sequence, ss ++ ss'⟩, tree⟩ :: s.under) rest) ?_ ?_ h rest hrest
  · intro i w y hi rest hrest
    exact run_item s hi ss t rest hrest
  · intro u ss₁ w y i ih hi rest hrest
    obtain ⟨tree₁, hrun₁⟩ := ih (.punct .semicolon :: (w ++ rest)) (live_separator s _)
    obtain ⟨tree₂, hrun₂⟩ := run_item s hi (ss ++ ss₁) tree₁ rest hrest
    refine ⟨tree₂, ?_⟩
    rw [List.append_assoc, List.cons_append, ← List.append_assoc ss]
    exact hrun₁.trans ((run_separator s _ _ _).trans hrun₂)

/-- A statement may stand at the place, and before a `;` it is added to the list. -/
theorem run_statement {done : List Stmt} {base : List Cell} (h : s.Open done base) :
    ∃ q, automaton.goto? (topState (frames base)) .item = some q ∧
      automaton.move q (some (.punct .semicolon)) ≠ .fail ∧
      ∀ (i : Option Stmt) t rest, ∃ tree,
        Run automaton (⟨⟨q, .nonterminal .item, i⟩, t⟩ :: base) (.punct .semicolon :: rest)
          (⟨⟨s.listed, .nonterminal .sequence, done ++ i.toList⟩, tree⟩ :: s.under)
          (.punct .semicolon :: rest) := by
  cases h with
  | next _ d =>
    obtain ⟨q, hq, hjoin⟩ := run_join s
    exact ⟨q, hq, (hjoin _ (live_separator s [])).1,
      fun i t rest => (hjoin _ (live_separator s rest)).2 i done d t⟩
  | first =>
    obtain ⟨rule, hr⟩ := exists_rule (.inl rfl)
    obtain ⟨last, hpath, hlast⟩ := automaton_complete _ _ rule startRule hr s.goto (by decide)
    obtain ⟨q, hq, hend⟩ := Option.bind_eq_some_iff.mp hpath
    cases hend
    have hred := hlast _ (live_separator s [])
    refine ⟨last, hq, ?_, fun i t rest => ⟨_, run_reduce (r := startRule) s.under
      [⟨⟨last, .nonterminal .item, i⟩, t⟩] hr s.goto rfl hred⟩⟩
    rw [show automaton.move last (some (.punct .semicolon)) = .reduce rule from hred]
    exact Move.noConfusion

end

/-! ## the places in a derivation -/

/-- The place before the first statement of a list. -/
theorem findsGap_start {d : Derivation} {w : List Token} {ss : List Stmt}
    (h : Derives rules d (.nonterminal .sequence) w ss) :
    automaton.FindsGap (.nonterminal .sequence) [] w ss := by
  intro st q hq
  obtain ⟨s, rfl, rfl⟩ := exists_slot hq
  exact ⟨s, [], s.under, fun done => done ++ ss, .first, rfl, fun w => .refl _ _,
    fun done t rest hrest => run_sequence s h done t rest hrest⟩

theorem findsGap_first {rule : Nat} {r : Rule} {s e : Derivation} {X : Symbol} {w : List Token}
    {x : X.Value} (hr : rules[rule]? = some r) (hn : r.lhs = .compound)
    (h : Derives rules (.node rule [.leaf (.keyword .begin), s, e]) X w x) :
    automaton.FindsGap X [.keyword .begin] (s.tokens ++ e.tokens) x := by
  obtain rfl := eq_compoundRule hr hn
  cases h with
  | @node _ r _ _ _ hr' hds =>
    cases hr.symm.trans hr'
    obtain ⟨_, _, _, _, _, he, rfl, _, hds⟩ := hds.uncons
    cases he
    obtain ⟨_, _, us, _, _, he, rfl, hs, hds⟩ := hds.uncons
    cases he
    have htokens : e.tokens ++ [] = _ := hds.tokensAll_eq
    rw [hs.tokens_eq, ← List.append_nil e.tokens, htokens]
    refine findsGap_node automaton_complete hr (by decide) ?_
    refine findsGapAll_later (d := .leaf (.keyword .begin)) (w := [.keyword .begin]) (x := ())
      (fun st rest p hp _ => ?_) (findsGapAll_here automaton_complete (findsGap_start hs) hds)
    exact .single (advance_shift (t := .keyword .begin) (after?_terminal hp))

theorem findsGap_next {rule : Nat} {r : Rule} {s i : Derivation} {X : Symbol} {w : List Token}
    {x : X.Value} (hr : rules[rule]? = some r) (hn : r.lhs = .sequence)
    (h : Derives rules (.node rule [s, .leaf (.punct .semicolon), i]) X w x) :
    automaton.FindsGap X (s.tokens ++ [.punct .semicolon]) i.tokens x := by
  cases h with
  | @node _ r _ _ _ hr' hds =>
    cases hr.symm.trans hr'
    rcases eq_startRule_or_joinRule hr hn with rfl | rfl
    · obtain ⟨_, _, _, _, _, he, _, _, hnil⟩ := hds.uncons
      cases he
      cases hnil
    · obtain ⟨_, _, _, _, ss, he, rfl, hs, hds⟩ := hds.uncons
      cases he
      obtain ⟨_, _, _, _, _, he, rfl, hm, hds⟩ := hds.uncons
      cases he
      obtain ⟨_, _, _, _, y, he, rfl, hi, hnil⟩ := hds.uncons
      cases he
      cases hnil
      rw [hs.tokens_eq, hi.tokens_eq]
      intro st q hq
      obtain ⟨slot, rfl, rfl⟩ := exists_slot hq
      refine ⟨slot, ss, slot.resume ss s, fun done => done ++ y.toList, .next ss s, rfl,
        fun rest => ?_, fun done t rest hrest => run_item slot hi done t rest hrest⟩
      rw [List.append_assoc]
      exact (automaton_complete.finds hs slot.under (.punct .semicolon :: rest) slot.listed hq
        (live_separator slot rest)).trans (run_separator slot ss s rest)

/-- The place in one of several symbols. -/
theorem findsGapAll_append {R : Type} {before after : List Derivation} {d : Derivation}
    {Xs : List Symbol} {u v w : List Token} {f : Action Xs R} {a : R} (hu : u ≠ [])
    (hd : ∀ X w (x : X.Value), Derives rules d X w x → automaton.FindsGap X u v x)
    (h : DerivesAll rules (before ++ d :: after) Xs w f a) :
    automaton.FindsGapAll Xs (Derivation.tokensAll before ++ u) (v ++ Derivation.tokensAll after)
      f a := by
  induction before generalizing Xs w with
  | nil =>
    cases h with
    | cons hfirst hds =>
      rw [hds.tokensAll_eq]
      exact findsGapAll_here automaton_complete (hd _ _ _ hfirst) hds
  | cons d₀ before ih =>
    cases h with
    | cons hfirst hds =>
      have hfinds := automaton_complete.finds hfirst
      rw [Derivation.tokensAll, hfirst.tokens_eq, List.append_assoc]
      refine findsGapAll_later (fun st rest p hp hlive => hfinds st _ p hp (hlive ?_)) (ih hds)
      exact List.append_ne_nil_of_right_ne_nil _ hu

/-- **The automaton stops at every place where a statement may begin, and goes on from there.** -/
theorem findsGap {d : Derivation} {X : Symbol} {u v w : List Token} {x : X.Value}
    (hg : d.Gap rules u v) (h : Derives rules d X w x) : automaton.FindsGap X u v x := by
  induction hg generalizing X w x with
  | first hr hn => exact findsGap_first hr hn h
  | next hr hn => exact findsGap_next hr hn h
  | @inside rule before after d u v hg ih =>
    cases h with
    | node hr hds =>
      exact findsGap_node automaton_complete hr (derivesAll_error hds)
        (findsGapAll_append hg.ne_nil (fun _ _ _ hd => ih hd) hds)

/-! ## every `begin` -/

/-- A `begin` stands first in the rule of compound statements, and nowhere else. -/
def checkBegin (r : Rule) : Bool :=
  !r.rhs.tail.contains (word .begin) && (r.rhs.head? ≠ some (word .begin) || r.lhs = .compound)

set_option maxRecDepth 10000 in
theorem begin_first {rule i : Nat} {r : Rule} (hr : rules[rule]? = some r)
    (hi : r.rhs[i]? = some (word .begin)) : i = 0 ∧ r = compoundRule := by
  have hall : rules.toList.all checkBegin = true := by decide +kernel
  have h := List.all_eq_true.mp hall r (Array.mem_toList_iff.mpr (Array.mem_of_getElem? hr))
  simp only [checkBegin, Bool.and_eq_true, Bool.not_eq_true', Bool.or_eq_true,
    decide_eq_true_eq, List.contains_eq_mem, decide_eq_false_iff_not] at h
  cases i with
  | zero =>
    rw [← List.head?_eq_getElem?] at hi
    exact ⟨rfl, eq_compoundRule hr (h.2.resolve_left fun hne => hne hi)⟩
  | succ i =>
    rw [← List.getElem?_tail] at hi
    exact absurd (List.mem_of_getElem? hi) h.1

/-- The `begin` between `u` and `v` is the whole of a derivation, or there is a place after it. -/
def HasBegin (d : Derivation) (X : Symbol) (u v : List Token) : Prop :=
  d.Gap rules (u ++ [.keyword .begin]) v ∨
    d = .leaf (.keyword .begin) ∧ u = [] ∧ v = [] ∧ X = word .begin

def HasBeginIn (ds : List Derivation) (Xs : List Symbol) (u v : List Token) : Prop :=
  ∃ before d after X u' v', ds = before ++ d :: after ∧ Xs[before.length]? = some X ∧
    u = Derivation.tokensAll before ++ u' ∧ v = v' ++ Derivation.tokensAll after ∧ HasBegin d X u' v'

theorem gap_node {rule : Nat} {r : Rule} {ds : List Derivation} {w u v : List Token}
    {x : r.lhs.Value} (hr : rules[rule]? = some r) (hds : DerivesAll rules ds r.rhs w r.action x)
    (h : HasBeginIn ds r.rhs u v) :
    (Derivation.node rule ds).Gap rules (u ++ [.keyword .begin]) v := by
  obtain ⟨before, d, after, X, u, v, rfl, hi, rfl, rfl, hgap | ⟨rfl, rfl, rfl, rfl⟩⟩ := h
  · rw [List.append_assoc]
    exact .inside hgap
  · obtain ⟨hlen, rfl⟩ := begin_first hr hi
    cases List.length_eq_zero_iff.mp hlen
    obtain ⟨_, _, _, _, _, he, _, _, hds⟩ := hds.uncons
    cases he
    obtain ⟨s, _, _, _, _, rfl, _, _, hds⟩ := hds.uncons
    obtain ⟨e, _, _, _, _, rfl, _, _, hnil⟩ := hds.uncons
    cases hnil
    have hgap := Derivation.Gap.first (s := s) (e := e) hr rfl
    rwa [← List.append_nil e.tokens] at hgap

theorem split_append {α : Type} {a b u v : List α} {t : α} (h : a ++ b = u ++ t :: v) :
    (∃ v', a = u ++ t :: v' ∧ v = v' ++ b) ∨ ∃ u', u = a ++ u' ∧ b = u' ++ t :: v := by
  rcases List.append_eq_append_iff.mp h with ⟨u', hu, hb⟩ | ⟨c, ha, hc⟩
  · exact .inr ⟨u', hu, hb⟩
  · cases c with
    | nil => exact .inr ⟨[], by rw [ha, List.append_nil, List.append_nil], hc.symm⟩
    | cons x c =>
      obtain ⟨rfl, rfl⟩ := List.cons.inj hc
      exact .inl ⟨c, ha, rfl⟩

/-- **A statement may begin after every `begin`.** -/
theorem gap_of_begin {d : Derivation} {n : Nonterminal} {w u v : List Token} {x : n.Value}
    (h : Derives rules d (.nonterminal n) w x) (hw : w = u ++ .keyword .begin :: v) :
    d.Gap rules (u ++ [.keyword .begin]) v := by
  have hbegin := @Derives.rec rules
    (fun d X w _ _ => ∀ u v, w = u ++ .keyword .begin :: v → HasBegin d X u v)
    (fun ds Xs w _ _ _ _ => ∀ u v, w = u ++ .keyword .begin :: v → HasBeginIn ds Xs u v)
    ?_ ?_ ?_ ?_ d (.nonterminal n) w x h u v hw
  · exact hbegin.resolve_right fun h => Symbol.noConfusion h.2.2.2
  · intro t u v hw
    obtain ⟨rfl, hw⟩ | ⟨_, hnil⟩ := List.singleton_eq_append_iff.mp hw
    · cases hw
      exact .inr ⟨rfl, rfl, rfl, rfl⟩
    · cases hnil
  · intro rule r ds w x hr hds ih u v hw
    exact .inl (gap_node hr hds (ih u v hw))
  · intro R a u v hw
    cases u <;> cases hw
  · intro R d ds X Xs a b x f y hd hds ihd ihds u v hw
    rcases split_append hw with ⟨v', ha, rfl⟩ | ⟨u', rfl, hb⟩
    · exact ⟨[], d, ds, X, u, v', rfl, rfl, rfl, by rw [hds.tokensAll_eq], ihd u v' ha⟩
    · obtain ⟨before, d', after, Y, u'', v', rfl, hY, rfl, rfl, hgap⟩ := ihds u' v hb
      refine ⟨d :: before, d', after, Y, u'', v', rfl, hY, ?_, rfl, hgap⟩
      rw [Derivation.tokensAll, hd.tokens_eq, List.append_assoc]

end Grammar

end PascalStack
