import PascalStack.Proofs.Compiler.Programs

/-!
# Labels of compiled code

* `labelsOf`, `targetsOf`   the labels that code defines, and those that it names;
* `LabelKind.label`         the labels of statements; two of them are the same only if their numbers are;
* `Labelled`                the labels of statements have fresh numbers, and every target is defined
                            or is a function;
* `program_labels`          no label of a program is defined twice, and every target is defined.
-/

namespace PascalStack

def Line.label? : Line → Option String
  | .label name => some name
  | .op _ => none

def Op.target? : Op String → Option String
  | .pusha label | .jump label | .jz label => some label
  | _ => none

def Line.target? : Line → Option String
  | .label _ => none
  | .op o => o.target?

def labelsOf (code : List Line) : List String := code.filterMap Line.label?

def targetsOf (code : List Line) : List String := code.filterMap Line.target?

theorem labelsOf_append (a b : List Line) : labelsOf (a ++ b) = labelsOf a ++ labelsOf b :=
  List.filterMap_append ..

theorem targetsOf_append (a b : List Line) : targetsOf (a ++ b) = targetsOf a ++ targetsOf b :=
  List.filterMap_append ..

theorem labelsOf_emit (ops : List (Op String)) : labelsOf (emit ops) = [] := by
  unfold labelsOf emit
  rw [List.filterMap_map]
  exact List.filterMap_eq_nil_iff.mpr fun _ _ => rfl

theorem targetsOf_emit (ops : List (Op String)) : targetsOf (emit ops) = ops.filterMap Op.target? :=
  List.filterMap_map ..

theorem labelsOf_label (name : String) : labelsOf [.label name] = [name] := rfl

theorem targetsOf_label (name : String) : targetsOf [.label name] = [] := rfl

/-! ## the labels of statements -/

inductive LabelKind where
  | otherwise | endIf | loop | endLoop | count | endCount
deriving DecidableEq

namespace LabelKind

def text : LabelKind → String
  | otherwise => "else"
  | endIf => "endif"
  | loop => "while"
  | endLoop => "endwhile"
  | count => "for"
  | endCount => "endfor"

def label (kind : LabelKind) (i : Nat) : String := kind.text ++ naturalText i

def counter : LabelKind → Counters → Nat
  | otherwise, k | endIf, k => k.ifs
  | loop, k | endLoop, k => k.whiles
  | count, k | endCount, k => k.fors

/-- The text of a label up to the first digit is the name of its kind. -/
theorem takeWhile_label (kind : LabelKind) (i : Nat) :
    (kind.label i).toList.takeWhile (fun c => !c.isDigit) = kind.text.toList := by
  have hdigits : (naturalText i).toList.takeWhile (fun c => !c.isDigit) = [] := by
    unfold naturalText
    rw [Nat.toList_repr]
    cases h : Nat.toDigits 10 i with
    | nil => rfl
    | cons c cs =>
      have hc : c ∈ Nat.toDigits 10 i := h ▸ List.mem_cons_self ..
      rw [List.takeWhile_cons, Nat.isDigit_of_mem_toDigits (b := 10) (by decide) (by decide) hc]
      rfl
  have htext : kind.text.toList.all (fun c => !c.isDigit) = true := by cases kind <;> decide
  unfold label
  rw [String.toList_append, List.takeWhile_append_of_pos (List.all_eq_true.mp htext), hdigits, List.append_nil]

theorem text_inj {a b : LabelKind} (h : a.text.toList = b.text.toList) : a = b := by
  revert h
  cases a <;> cases b <;> decide

/-- The text of a label says its kind and its number. -/
theorem label_inj {a b : LabelKind} {i j : Nat} (h : a.label i = b.label j) : a = b ∧ i = j := by
  have hkind : a = b := by
    refine text_inj ?_
    rw [← a.takeWhile_label i, ← b.takeWhile_label j, h]
  subst hkind
  refine ⟨rfl, ?_⟩
  have hlist := congrArg String.toList h
  unfold label naturalText at hlist
  rw [String.toList_append, String.toList_append] at hlist
  have hdigits := congrArg (Nat.ofDigitChars 10 · 0) (List.append_cancel_left hlist)
  simpa only [Nat.toList_repr, Nat.ofDigitChars_ten_toDigits] using hdigits

end LabelKind

/-- A text that is the label of a statement in some program. -/
def IsStatementLabel (name : String) : Prop := ∃ (kind : LabelKind) (i : Nat), name = kind.label i

theorem not_isStatementLabel {name : String}
    (h : ∀ kind : LabelKind, name.toList.takeWhile (fun c => !c.isDigit) ≠ kind.text.toList) :
    ¬ IsStatementLabel name := by
  rintro ⟨kind, i, rfl⟩
  exact h kind (kind.takeWhile_label i)

theorem not_isStatementLabel_main : ¬ IsStatementLabel "main" :=
  not_isStatementLabel fun kind => by cases kind <;> decide

/-! ## fresh numbers -/

/-- The label has a number from `k` up to `k'`. -/
def Numbered (k k' : Counters) (name : String) : Prop :=
  ∃ (kind : LabelKind) (i : Nat), name = kind.label i ∧ kind.counter k ≤ i ∧ i < kind.counter k'

/-- Distinct labels with numbers from `k` up to `k'`. -/
structure Fresh (k k' : Counters) (names : List String) : Prop where
  le : ∀ kind : LabelKind, kind.counter k ≤ kind.counter k'
  numbered : ∀ name ∈ names, Numbered k k' name
  nodup : names.Nodup

theorem Fresh.nil (k : Counters) : Fresh k k [] :=
  ⟨fun _ => Nat.le_refl _, nofun, List.nodup_nil⟩

section
variable {k k₁ k' : Counters} {a b own names : List String} {name : String}

theorem Fresh.append (ha : Fresh k k₁ a) (hb : Fresh k₁ k' b) : Fresh k k' (a ++ b) := by
  refine ⟨fun kind => Nat.le_trans (ha.le kind) (hb.le kind), fun name h => ?_, ?_⟩
  · rcases List.mem_append.mp h with h | h
    · obtain ⟨kind, i, he, hk, hi⟩ := ha.numbered name h
      exact ⟨kind, i, he, hk, Nat.lt_of_lt_of_le hi (hb.le kind)⟩
    · obtain ⟨kind, i, he, hk, hi⟩ := hb.numbered name h
      exact ⟨kind, i, he, Nat.le_trans (ha.le kind) hk, hi⟩
  · refine List.nodup_append.mpr ⟨ha.nodup, hb.nodup, fun n hna m hmb hnm => ?_⟩
    obtain ⟨kind, i, hn, _, hi⟩ := ha.numbered n hna
    obtain ⟨kind', j, hm, hj, _⟩ := hb.numbered m hmb
    obtain ⟨rfl, rfl⟩ := LabelKind.label_inj (hn.symm.trans (hnm.trans hm))
    exact absurd hi (Nat.not_lt.mpr hj)

theorem Fresh.perm (h : Fresh k k' a) (hp : b.Perm a) : Fresh k k' b :=
  ⟨h.le, fun name hname => h.numbered name (hp.subset hname), hp.nodup_iff.mpr h.nodup⟩

theorem Fresh.sublist (h : Fresh k k' a) (hs : b.Sublist a) : Fresh k k' b :=
  ⟨h.le, fun name hname => h.numbered name (hs.subset hname), h.nodup.sublist hs⟩

theorem Fresh.isStatementLabel (h : Fresh k k' names) (hname : name ∈ names) :
    IsStatementLabel name := by
  obtain ⟨kind, i, he, _⟩ := h.numbered name hname
  exact ⟨kind, i, he⟩

/-- Two labels of one statement. -/
theorem Fresh.pair {a b : LabelKind} (hab : a ≠ b)
    (hle : ∀ kind : LabelKind, kind.counter k ≤ kind.counter k₁)
    (ha : a.counter k < a.counter k₁) (hb : b.counter k < b.counter k₁) :
    Fresh k k₁ [a.label (a.counter k), b.label (b.counter k)] := by
  refine ⟨hle, fun name h => ?_, ?_⟩
  · rcases List.mem_cons.mp h with rfl | h
    · exact ⟨a, _, rfl, Nat.le_refl _, ha⟩
    · rcases List.mem_singleton.mp h with rfl
      exact ⟨b, _, rfl, Nat.le_refl _, hb⟩
  · refine List.nodup_cons.mpr ⟨fun h => hab ?_, List.pairwise_singleton ..⟩
    exact (LabelKind.label_inj (List.mem_singleton.mp h)).1

end

theorem fresh_if (k : Counters) :
    Fresh k { k with ifs := k.ifs + 1 } [elseLabel k.ifs, endIfLabel k.ifs] := by
  refine Fresh.pair (a := .otherwise) (b := .endIf) (by decide) (fun kind => ?_) ?_ ?_
  · cases kind <;> simp [LabelKind.counter]
  · exact Nat.lt_succ_self _
  · exact Nat.lt_succ_self _

theorem fresh_while (k : Counters) :
    Fresh k { k with whiles := k.whiles + 1 } [whileLabel k.whiles, endWhileLabel k.whiles] := by
  refine Fresh.pair (a := .loop) (b := .endLoop) (by decide) (fun kind => ?_) ?_ ?_
  · cases kind <;> simp [LabelKind.counter]
  · exact Nat.lt_succ_self _
  · exact Nat.lt_succ_self _

theorem fresh_for (k : Counters) :
    Fresh k { k with fors := k.fors + 1 } [forLabel k.fors, endForLabel k.fors] := by
  refine Fresh.pair (a := .count) (b := .endCount) (by decide) (fun kind => ?_) ?_ ?_
  · cases kind <;> simp [LabelKind.counter]
  · exact Nat.lt_succ_self _
  · exact Nat.lt_succ_self _

/-! ## expressions and statements -/

section
variable {T : String → Prop} {S : Scopes}

/-- Code without labels, in which only functions are targets. -/
structure Straight (T : String → Prop) (code : List Line) : Prop where
  labels : labelsOf code = []
  targets : ∀ t ∈ targetsOf code, T t

theorem Straight.append {a b : List Line} (ha : Straight T a) (hb : Straight T b) :
    Straight T (a ++ b) := by
  refine ⟨by rw [labelsOf_append, ha.labels, hb.labels, List.nil_append], fun t ht => ?_⟩
  rw [targetsOf_append] at ht
  exact (List.mem_append.mp ht).elim (ha.targets t) (hb.targets t)

theorem Straight.emit {ops : List (Op String)} (h : ∀ o ∈ ops, o.target? = none) :
    Straight T (emit ops) := by
  refine ⟨labelsOf_emit ops, fun t ht => ?_⟩
  rw [targetsOf_emit, List.filterMap_eq_nil_iff.mpr h] at ht
  cases ht

theorem Straight.basic (bs : List Basic) : Straight T (emitBasic bs) := by
  refine .emit fun o ho => ?_
  obtain ⟨b, _, rfl⟩ := List.mem_map.mp ho
  rfl

theorem Straight.conversion (c : Option Conversion) : Straight T (emitConversion c) := by
  rcases c with _ | c
  · exact .emit nofun
  · cases c <;> exact .emit (by decide)

theorem Straight.call {name : String} {f : Signature} (hT : ∀ name f, S.Callable name f → T f.label)
    (h : S.Callable name f) : Straight T (callCode f.label) := by
  refine ⟨rfl, fun t ht => ?_⟩
  rcases List.mem_singleton.mp ht with rfl
  exact hT name f h

theorem Straight.address (v : Variable) : Straight T (addressCode v) := .emit (by simp [Op.target?])

theorem Straight.power {t : DataType} {base : List Line} (h : Straight T base) (n : Nat) :
    Straight T (powerCode t base n) := by
  cases n with
  | zero => exact .emit (by unfold oneOf; split <;> simp [Op.target?])
  | succ n =>
    have hdup : Straight T (PascalStack.emit (List.replicate n (.dup 1))) :=
      .emit fun o ho => by rw [List.eq_of_mem_replicate ho]; rfl
    exact (h.append hdup).append (.basic _)

mutual

theorem ExprCode.straight (hT : ∀ name f, S.Callable name f → T f.label) {e : Expr}
    {code : List Line} (h : ExprCode S e code) : Straight T code := by
  cases h with
  | access h => exact h.straight hT
  | builtin _ _ h => exact (h.straight hT).append (.basic _)
  | call _ hf h => exact (h.straight hT).append (.call hT hf)
  | binary _ _ _ hl hr =>
    exact ((((hl.straight hT).append (.conversion _)).append (hr.straight hT)).append
      (.conversion _)).append (.basic _)
  | @signed sign _ t _ _ _ h =>
    refine (h.straight hT).append (.emit ?_)
    cases sign <;> cases t <;> simp [Sign.code, Op.target?]
  | unit => exact .power ⟨rfl, nofun⟩ 0
  | power _ _ _ h => exact (h.straight hT).power _
  | not _ _ h => exact (h.straight hT).append (.basic _)
  | @constant c => exact .emit (by cases c <;> simp [Constant.push, Op.target?])
  | set h => exact h.straight hT

theorem AccessCode.straight (hT : ∀ name f, S.Callable name f → T f.label) {a : Access}
    {code : List Line} (h : AccessCode S a code) : Straight T code := by
  cases h with
  | truth _ => exact .emit (by simp [Op.target?])
  | plain _ _ _ => exact .emit (by simp [Op.target?])
  | function _ _ hf _ => exact .call hT hf
  | element _ _ _ h => exact ((h.straight hT).append (.address _)).append (.emit (by decide))
  | character _ _ _ h =>
    exact (Straight.append (.emit (by simp [Op.target?])) (h.straight hT)).append (.emit (by decide))

theorem ArgumentsCode.straight (hT : ∀ name f, S.Callable name f → T f.label) {ts : List DataType}
    {arguments : List Argument} {code : List Line} (h : ArgumentsCode S ts arguments code) :
    Straight T code := by
  cases h with
  | nil => exact ⟨rfl, nofun⟩
  | cons _ _ he hr => exact ((he.straight hT).append (.conversion _)).append (hr.straight hT)

theorem MembersCode.straight (hT : ∀ name f, S.Callable name f → T f.label) {members : List Member}
    {code : List Line} (h : MembersCode S members code) : Straight T code := by
  cases h with
  | nil => exact ⟨rfl, nofun⟩
  | single he hr => exact (he.straight hT).append (hr.straight hT)
  | range hl hh hr => exact ((hl.straight hT).append (hh.straight hT)).append (hr.straight hT)

end

end

/-- Code of statements: the labels are fresh, and a target is one of them or a function. -/
structure Labelled (T : String → Prop) (k k' : Counters) (code : List Line) : Prop where
  fresh : Fresh k k' (labelsOf code)
  targets : ∀ t ∈ targetsOf code, t ∈ labelsOf code ∨ T t

section
variable {T : String → Prop} {k k₁ k' : Counters} {a b code body : List Line}

theorem Straight.labelled (h : Straight T code) (k : Counters) : Labelled T k k code :=
  ⟨h.labels ▸ .nil k, fun t ht => .inr (h.targets t ht)⟩

theorem Labelled.append (ha : Labelled T k k₁ a) (hb : Labelled T k₁ k' b) :
    Labelled T k k' (a ++ b) := by
  refine ⟨by rw [labelsOf_append]; exact ha.fresh.append hb.fresh, fun t ht => ?_⟩
  rw [targetsOf_append] at ht
  rw [labelsOf_append]
  rcases List.mem_append.mp ht with ht | ht
  · exact (ha.targets t ht).imp_left (List.mem_append_left _)
  · exact (hb.targets t ht).imp_left (List.mem_append_right _)

/-- A statement adds its own labels to those of its parts, and jumps only to its own. -/
theorem Labelled.enclose {own : List String} (hb : Labelled T k₁ k' body) (hown : Fresh k k₁ own)
    (hlabels : (labelsOf code).Perm (own ++ labelsOf body))
    (htargets : ∀ t ∈ targetsOf code, t ∈ own ∨ t ∈ targetsOf body ∨ T t) : Labelled T k k' code := by
  refine ⟨(hown.append hb.fresh).perm hlabels, fun t ht => ?_⟩
  rw [hlabels.mem_iff, List.mem_append]
  rcases htargets t ht with ht | ht | ht
  · exact .inl (.inl ht)
  · exact (hb.targets t ht).imp_left .inr
  · exact .inr ht

end

section
variable {T : String → Prop} {x : Context}

theorem WritesCode.straight (hT : ∀ name f, x.scopes.Callable name f → T f.label)
    {arguments : List Argument} {code : List Line} (h : WritesCode x arguments code) :
    Straight T code := by
  induction h with
  | nil => exact ⟨rfl, nofun⟩
  | cons _ _ he _ ih => exact ((he.straight hT).append (.basic _)).append ih

theorem straight_read {t : DataType} {ops : List (Op String)} (h : t.read? = some ops) :
    Straight T (emit ops) := by
  refine .emit ?_
  cases t <;> cases h <;> simp [Op.target?]

theorem ReadCode.straight (hT : ∀ name f, x.scopes.Callable name f → T f.label) {a : Access}
    {code : List Line} (h : ReadCode x a code) : Straight T code := by
  cases h with
  | name _ hops =>
    exact ((Straight.basic _).append (straight_read hops)).append (.emit (by simp [Op.target?]))
  | element _ _ hops _ hi =>
    exact (((Straight.basic _).append (straight_read hops)).append
      ((hi.straight hT).append (.address _))).append (.emit (by decide))

theorem AssignCode.straight (hT : ∀ name f, x.scopes.Callable name f → T f.label) {a : Access}
    {value : Expr} {code : List Line} (h : AssignCode x a value code) : Straight T code := by
  cases h with
  | name _ he _ _ =>
    exact ((he.straight hT).append (.conversion _)).append (.emit (by simp [Op.target?]))
  | element _ he _ _ _ _ hi =>
    exact (((he.straight hT).append (.conversion _)).append
      ((hi.straight hT).append (.address _))).append (.emit (by decide))

theorem CallCode.straight (hT : ∀ name f, x.scopes.Callable name f → T f.label) {name : String}
    {arguments : List Argument} {code : List Line} (h : CallCode x name arguments code) :
    Straight T code := by
  cases h with
  | write _ _ h => exact (h.straight hT).append (.basic _)
  | skip _ _ => exact (Straight.basic _).append (.emit (by decide))
  | read _ _ h => exact h.straight hT
  | function _ h => exact (h.straight hT).append (.emit (by decide))

mutual

theorem StmtCode.labelled (hT : ∀ name f, x.scopes.Callable name f → T f.label) {k k' : Counters}
    {s : Stmt} {code : List Line} (h : StmtCode x k s code k') : Labelled T k k' code := by
  cases h with
  | compound h => exact h.labelled hT
  | assign h => exact (h.straight hT).labelled k
  | call h => exact (h.straight hT).labelled k
  | ifThen _ hc ht =>
    have hc := hc.straight hT
    refine (ht.labelled hT).enclose ((fresh_if k).sublist (List.sublist_cons_self ..)) ?_ ?_
    · simp only [ifCode, labelsOf_append, labelsOf_emit, labelsOf_label, hc.labels, List.nil_append]
      exact List.perm_append_comm
    · simp only [ifCode, targetsOf_append, targetsOf_emit, targetsOf_label, List.mem_append]
      rintro t (((h | h) | h) | h)
      · exact .inr (.inr (hc.targets t h))
      · exact .inl h
      · exact .inr (.inl h)
      · cases h
  | ifThenElse _ hc ht he =>
    have hc := hc.straight hT
    refine ((ht.labelled hT).append (he.labelled hT)).enclose (fresh_if k) ?_ ?_
    · simp only [ifElseCode, labelsOf_append, labelsOf_emit, labelsOf_label, hc.labels]
      simp only [List.nil_append, List.append_nil, List.cons_append, List.append_assoc]
      refine List.perm_middle.trans (.cons _ ?_)
      rw [← List.append_assoc]
      exact List.perm_append_singleton ..
    · simp only [ifElseCode, targetsOf_append, targetsOf_emit, targetsOf_label, List.mem_append]
      rintro t ((((((h | h) | h) | h) | h) | h) | h)
      · exact .inr (.inr (hc.targets t h))
      · exact .inl (List.mem_cons.mpr (.inl (List.mem_singleton.mp h)))
      · exact .inr (.inl (.inl h))
      · exact .inl (List.mem_cons_of_mem _ h)
      · cases h
      · exact .inr (.inl (.inr h))
      · cases h
  | whileDo _ hc hb =>
    have hc := hc.straight hT
    refine (hb.labelled hT).enclose (fresh_while k) ?_ ?_
    · simp only [whileCode, labelsOf_append, labelsOf_emit, labelsOf_label, hc.labels]
      simp only [List.nil_append, List.append_nil, List.cons_append]
      exact .cons _ (List.perm_append_singleton ..)
    · simp only [whileCode, targetsOf_append, targetsOf_emit, targetsOf_label, List.mem_append]
      rintro t (((((h | h) | h) | h) | h) | h)
      · cases h
      · exact .inr (.inr (hc.targets t h))
      · exact .inl (List.mem_cons_of_mem _ h)
      · exact .inr (.inl h)
      · exact .inl (List.mem_cons.mpr (.inl (List.mem_singleton.mp h)))
      · cases h
  | forDo _ _ _ _ hi hf hb =>
    have hi := hi.straight hT
    have hf := hf.straight hT
    refine (hb.labelled hT).enclose (fresh_for k) ?_ ?_
    · simp only [forCode, labelsOf_append, labelsOf_emit, labelsOf_label, hi.labels, hf.labels]
      simp only [List.nil_append, List.append_nil, List.cons_append]
      exact .cons _ (List.perm_append_singleton ..)
    · simp only [forCode, targetsOf_append, targetsOf_emit, targetsOf_label, List.mem_append]
      rintro t ((((((((h | h) | h) | h) | h) | h) | h) | h) | h)
      · exact .inr (.inr (hi.targets t h))
      · cases h
      · cases h
      · cases h
      · exact .inr (.inr (hf.targets t h))
      · exact .inl (List.mem_cons_of_mem _ h)
      · exact .inr (.inl h)
      · exact .inl (List.mem_cons.mpr (.inl (List.mem_singleton.mp h)))
      · cases h

theorem StmtsCode.labelled (hT : ∀ name f, x.scopes.Callable name f → T f.label) {k k' : Counters}
    {ss : List Stmt} {code : List Line} (h : StmtsCode x k ss code k') : Labelled T k k' code := by
  cases h with
  | nil => exact Straight.labelled ⟨rfl, nofun⟩ k
  | cons hs hr => exact (hs.labelled hT).append (hr.labelled hT)

end

end

/-! ## functions and programs -/

section
variable {T : String → Prop} {L : Layout} {p : Program}

theorem straight_stores (slots : List Nat) :
    Straight T (emit (slots.map fun slot => .storeg (some slot))) := by
  refine .emit fun o ho => ?_
  obtain ⟨_, _, rfl⟩ := List.mem_map.mp ho
  rfl

theorem NamesCode.straight {S : Scopes} {type : TypeDenoter} {names : List String} {code : List Line}
    (h : NamesCode S type names code) : Straight T code := by
  induction h with
  | nil => exact ⟨rfl, nofun⟩
  | @scalar t _ _ _ _ _ _ _ ih =>
    refine Straight.append (.emit ?_) ih
    cases t <;> simp [DataType.initial, Op.target?]
  | @array _ _ _ _ _ size _ _ _ base _ _ _ _ _ _ _ _ ih =>
    have hpush : Straight T (emit [.pushn size]) := .emit (by simp [Op.target?])
    exact (hpush.append (straight_stores (List.range' base size))).append ih

theorem DeclarationsCode.straight {S : Scopes} {vs : List VarDecl} {code : List Line}
    (h : DeclarationsCode S vs code) : Straight T code := by
  induction h with
  | nil => exact ⟨rfl, nofun⟩
  | cons hn _ ih => exact hn.straight.append ih

theorem functionCode_labels {label : String} {result : Nat} {slots : List Nat}
    {declarations statements : List Line} (hd : Straight T declarations) :
    labelsOf (functionCode label result slots declarations statements)
      = label :: labelsOf statements := by
  simp only [functionCode, labelsOf_append, labelsOf_emit, labelsOf_label, hd.labels]
  simp only [List.append_nil, List.cons_append, List.nil_append]

theorem functionCode_targets {label : String} {result : Nat} {slots : List Nat}
    {declarations statements : List Line} (hd : Straight T declarations) {t : String}
    (ht : t ∈ targetsOf (functionCode label result slots declarations statements)) :
    t ∈ targetsOf statements ∨ T t := by
  simp only [functionCode, targetsOf_append, List.mem_append] at ht
  rcases ht with (((ht | ht) | ht) | ht) | ht
  · cases ht
  · exact .inr ((straight_stores _).targets t ht)
  · exact .inr (hd.targets t ht)
  · exact .inl ht
  · cases ht

/-- The labels of functions are their names and the labels of their statements. -/
theorem RoutinesCode.labels (hT : ∀ name f, L.scopes.Callable name f → T f.label) {k k' : Counters}
    {rs : List Routine} {code : List Line} (h : RoutinesCode L k rs code k') :
    ∃ own, Fresh k k' own ∧ (labelsOf code).Perm (rs.map (·.activation.name) ++ own) ∧
      ∀ t ∈ targetsOf code, t ∈ labelsOf code ∨ T t := by
  induction h with
  | nil => exact ⟨[], .nil _, .refl _, nofun⟩
  | @cons _ _ _ r rs _ rest hr _ ih =>
    obtain ⟨own, hfresh, hperm, htargets⟩ := ih
    obtain @⟨slots, declarations, statements, k₁, _, hd, hs⟩ := hr
    have hd : Straight T declarations := hd.straight
    have hs := hs.labelled fun name f hf => hT name f ⟨hf.function, hf.called, hf.internal⟩
    refine ⟨_, hs.fresh.append hfresh, ?_, fun t ht => ?_⟩
    · rw [labelsOf_append, functionCode_labels hd, List.map_cons, List.cons_append, List.cons_append]
      refine .cons _ ((hperm.append_left _).trans ?_)
      rw [← List.append_assoc, ← List.append_assoc]
      exact List.perm_append_comm.append_right _
    · rw [labelsOf_append, functionCode_labels hd]
      rw [targetsOf_append] at ht
      rcases List.mem_append.mp ht with ht | ht
      · rcases functionCode_targets hd ht with ht | ht
        · exact (hs.targets t ht).imp_left fun h => List.mem_append_left _ (List.mem_cons_of_mem _ h)
        · exact .inr ht
      · exact (htargets t ht).imp_left (List.mem_append_right _)

/-- The labels of a program are the names of its functions, `main` and the labels of statements. -/
theorem ProgramCode.labels {P : String → Prop} (hsound : L.Sound P) {code : List Line}
    (h : ProgramCode L p code) :
    ∃ k own, Fresh ⟨0, 0, 0⟩ k own ∧
      (labelsOf code).Perm ("main" :: L.routines.map (·.activation.name) ++ own) ∧
      ∀ t ∈ targetsOf code, t ∈ labelsOf code := by
  let T := fun t => ∃ r ∈ L.routines, t = r.activation.name
  have hT : ∀ name f, L.scopes.Callable name f → T f.label := by
    intro name f hf
    obtain ⟨r, hr, himp⟩ := hsound.callable name f hf
    exact ⟨r, hr, himp.label⟩
  obtain @⟨declarations, functions, statements, k, k', hd, hf, hs⟩ := h
  have hd : Straight T declarations := hd.straight
  obtain ⟨own, hfresh, hperm, htargets⟩ := hf.labels hT
  have hs : Labelled T k k' statements := hs.labelled hT
  refine ⟨k', own ++ labelsOf statements, hfresh.append hs.fresh, ?_, ?_⟩
  all_goals
    simp only [emitBasic, labelsOf_append, labelsOf_emit, labelsOf_label, hd.labels, List.nil_append,
      List.append_nil, List.append_assoc]
  · refine (hperm.append_right _).trans ?_
    rw [List.append_assoc, List.cons_append, ← List.append_assoc]
    refine List.perm_middle.trans (.cons _ ?_)
    rw [List.append_assoc]
    exact .refl _
  · -- a target that is a function is the label of its code
    have hfun : ∀ t, T t → t ∈ labelsOf functions := by
      rintro t ⟨r, hr, rfl⟩
      exact hperm.mem_iff.mpr (List.mem_append_left _ (List.mem_map_of_mem hr))
    intro t ht
    simp only [targetsOf_append, targetsOf_emit, targetsOf_label, List.mem_append] at ht
    simp only [List.mem_append, List.mem_cons]
    rcases ht with ht | ht | ht | ht | ht | ht | ht
    · exact .inl (hfun t (hd.targets t ht))
    · exact .inr (.inl (.inl (List.mem_singleton.mp ht)))
    · exact .inl ((htargets t ht).elim id (hfun t))
    · cases ht
    · cases ht
    · exact (hs.targets t ht).elim (fun h => .inr (.inr h)) (fun h => .inl (hfun t h))
    · cases ht

/-- The labels of functions and `main` are distinct. -/
theorem Layout.Sound.names_nodup {P : String → Prop} (hsound : L.Sound P) :
    ("main" :: L.routines.map (·.activation.name)).Nodup := by
  refine List.nodup_cons.mpr ⟨fun h => ?_, List.pairwise_map.mpr (hsound.distinct.imp fun h he => h ?_)⟩
  · obtain ⟨r, hr, hmain⟩ := List.mem_map.mp h
    exact (hsound.labels r hr).2 hmain
  · rw [he]

/-- Labels can only clash where a function is named like a statement. -/
theorem nodup_labels_iff {P : String → Prop} (hsound : L.Sound P) {k : Counters} {own : List String}
    (hfresh : Fresh ⟨0, 0, 0⟩ k own) {code : List Line}
    (hperm : (labelsOf code).Perm ("main" :: L.routines.map (·.activation.name) ++ own)) :
    (labelsOf code).Nodup ↔ ∀ r ∈ L.routines, r.activation.name ∉ own := by
  rw [hperm.nodup_iff, List.nodup_append]
  constructor
  · rintro ⟨-, -, happart⟩ r hr hown
    exact happart _ (List.mem_cons_of_mem _ (List.mem_map_of_mem hr)) _ hown rfl
  · refine fun h => ⟨hsound.names_nodup, hfresh.nodup, fun a ha b hb hab => ?_⟩
    subst hab
    rcases List.mem_cons.mp ha with rfl | ha
    · exact not_isStatementLabel_main (hfresh.isStatementLabel hb)
    · obtain ⟨r, hr, rfl⟩ := List.mem_map.mp ha
      exact h r hr hb

/-- **No label of a program is defined twice, and every label that it names is defined.** -/
theorem program_labels {P : String → Prop} (hsound : L.Sound P)
    (hP : ∀ name, P name → ¬ IsStatementLabel name) {code : List Line} (h : ProgramCode L p code) :
    (labelsOf code).Nodup ∧ ∀ t ∈ targetsOf code, t ∈ labelsOf code := by
  obtain ⟨k, own, hfresh, hperm, htargets⟩ := h.labels hsound
  refine ⟨(nodup_labels_iff hsound hfresh hperm).mpr fun r hr hown => ?_, htargets⟩
  exact hP _ (hsound.labels r hr).1 (hfresh.isStatementLabel hown)

end

end PascalStack
