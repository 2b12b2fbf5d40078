import PascalStack.Proofs.Compiler.Programs

/-!
# Slots that compiled code names

* `Op.slot?`, `SlotsIn`      the slot that is part of an instruction, and lines with slots of one kind only;
* `ExprCode.slotsIn`, `StmtCode.slotsIn`, ...   code names the slots of what is in sight;
* `Region.Has`               the slots of a region;
* `ProgramCode.slotsIn`      the code of a program names no slots but those of its regions.
-/

namespace PascalStack

def Op.slot? {α : Type} : Op α → Option Nat
  | .pushg slot | .storeg slot => slot
  | _ => none

theorem Line.slot?_op (o : Op String) : (Line.op o).slot? = o.slot? := by cases o <;> rfl

/-- Lines that name only slots of `R`. -/
def SlotsIn (R : Nat → Prop) (code : List Line) : Prop := ∀ n ∈ slotsOf code, R n

namespace SlotsIn
variable {R : Nat → Prop} {a b : List Line}

theorem nil : SlotsIn R [] := List.forall_mem_nil _

theorem append (ha : SlotsIn R a) (hb : SlotsIn R b) : SlotsIn R (a ++ b) := by
  intro n hn
  rw [slotsOf_append] at hn
  exact (List.mem_append.mp hn).elim (ha n) (hb n)

theorem label (name : String) : SlotsIn R [.label name] := List.forall_mem_nil _

theorem emit {ops : List (Op String)} (h : ∀ o ∈ ops, ∀ n, o.slot? = some n → R n) : SlotsIn R (emit ops) := by
  intro n hn
  obtain ⟨line, hline, hslot⟩ := List.mem_filterMap.mp hn
  obtain ⟨o, ho, rfl⟩ := List.mem_map.mp hline
  rw [Line.slot?_op] at hslot
  exact h o ho n hslot

theorem none {ops : List (Op String)} (h : ops.all (fun o => o.slot?.isNone) = true) :
    SlotsIn R (PascalStack.emit ops) := by
  refine .emit fun o ho n hn => ?_
  have hnone := List.all_eq_true.mp h o ho
  rw [hn] at hnone
  cases hnone

theorem basic (bs : List Basic) : SlotsIn R (emitBasic bs) := by
  refine .none (List.all_eq_true.mpr fun o ho => ?_)
  obtain ⟨b, _, rfl⟩ := List.mem_map.mp ho
  rfl

theorem one {o : Op String} {n : Nat} (hn : R n) (ho : o.slot? = some n) : SlotsIn R (PascalStack.emit [o]) := by
  refine .emit fun o' ho' m hm => ?_
  rw [List.mem_singleton.mp ho', ho] at hm
  cases hm
  exact hn

theorem stores {slots : List Nat} (h : ∀ n ∈ slots, R n) :
    SlotsIn R (PascalStack.emit (slots.map fun slot => .storeg (some slot))) := by
  intro n hn
  rw [slotsOf_stores] at hn
  exact h n hn

theorem conversion (c : Option Conversion) : SlotsIn R (emitConversion c) := by
  rcases c with _ | c
  · exact .nil
  · cases c <;> exact .none rfl

theorem power {t : DataType} (h : SlotsIn R a) (n : Nat) : SlotsIn R (powerCode t a n) := by
  cases n with
  | zero =>
    refine .none ?_
    unfold oneOf
    split <;> rfl
  | succ n =>
    refine (h.append (.none (List.all_eq_true.mpr fun o ho => ?_))).append (.basic _)
    rw [List.eq_of_mem_replicate ho]
    rfl

end SlotsIn

/-! ## expressions -/

section
variable {R : Nat → Prop} {S : Scopes}

mutual

theorem ExprCode.slotsIn (hR : ∀ id v, S.resolve? id = some v → R v.slot) {e : Expr} {code : List Line}
    (h : ExprCode S e code) : SlotsIn R code := by
  cases h with
  | access h => exact h.slotsIn hR
  | builtin _ _ h => exact (h.slotsIn hR).append (.basic _)
  | call _ _ h => exact (h.slotsIn hR).append (.none rfl)
  | binary _ _ _ hl hr =>
    exact ((((hl.slotsIn hR).append (.conversion _)).append (hr.slotsIn hR)).append (.conversion _)).append
      (.basic _)
  | @signed sign _ t _ _ _ h =>
    refine (h.slotsIn hR).append ?_
    cases sign with
    | plus => exact .nil
    | minus => cases t <;> exact .none rfl
  | unit => exact .power .nil 0
  | power _ _ _ h => exact (h.slotsIn hR).power _
  | not _ _ h => exact (h.slotsIn hR).append (.basic _)
  | @constant c => cases c <;> exact .none rfl
  | set h => exact h.slotsIn hR

theorem AccessCode.slotsIn (hR : ∀ id v, S.resolve? id = some v → R v.slot) {a : Access} {code : List Line}
    (h : AccessCode S a code) : SlotsIn R code := by
  cases h with
  | truth _ => exact .none rfl
  | plain _ hr _ => exact .one (hR _ _ hr) rfl
  | function _ _ _ _ => exact .none rfl
  | element _ _ _ h => exact ((h.slotsIn hR).append (.none rfl)).append (.none rfl)
  | character hr _ _ h => exact ((SlotsIn.one (hR _ _ hr) rfl).append (h.slotsIn hR)).append (.none rfl)

theorem ArgumentsCode.slotsIn (hR : ∀ id v, S.resolve? id = some v → R v.slot) {ts : List DataType}
    {arguments : List Argument} {code : List Line} (h : ArgumentsCode S ts arguments code) :
    SlotsIn R code := by
  cases h with
  | nil => exact .nil
  | cons _ _ he hr => exact ((he.slotsIn hR).append (.conversion _)).append (hr.slotsIn hR)

theorem MembersCode.slotsIn (hR : ∀ id v, S.resolve? id = some v → R v.slot) {members : List Member}
    {code : List Line} (h : MembersCode S members code) : SlotsIn R code := by
  cases h with
  | nil => exact .nil
  | single he hr => exact (he.slotsIn hR).append (hr.slotsIn hR)
  | range hl hh hr => exact ((hl.slotsIn hR).append (hh.slotsIn hR)).append (hr.slotsIn hR)

end

end

/-! ## statements -/

/-- The slots of the variables in sight and of the result at hand are in `R`. -/
structure Context.SlotsAre (x : Context) (R : Nat → Prop) : Prop where
  declared : ∀ id v, x.scopes.resolve? id = some v → R v.slot
  result : ∀ a, x.activation = some a → R a.slot

section
variable {R : Nat → Prop} {x : Context}

theorem Context.Targets.slotsIn {id : String} {slot : Nat} {t : DataType} (hR : x.SlotsAre R)
    (h : x.Targets id slot t) : SlotsIn R (emit [.storeg (some slot)]) := by
  cases h with
  | result ha _ => exact .one (hR.result _ ha) rfl
  | declared _ hr => exact .one (hR.declared _ _ hr) rfl

theorem SlotsIn.read {t : DataType} {ops : List (Op String)} (h : t.read? = some ops) :
    SlotsIn R (PascalStack.emit ops) := by
  cases t <;> cases h <;> exact .none rfl

section
variable (hR : x.SlotsAre R)
include hR

theorem ReadCode.slotsIn {a : Access} {code : List Line} (h : ReadCode x a code) : SlotsIn R code := by
  cases h with
  | name htarget hops => exact ((SlotsIn.basic _).append (.read hops)).append (htarget.slotsIn hR)
  | element _ _ hops _ he =>
    exact (((SlotsIn.basic _).append (.read hops)).append ((he.slotsIn hR.declared).append (.none rfl))).append
      (.none rfl)

theorem WritesCode.slotsIn {arguments : List Argument} {code : List Line} (h : WritesCode x arguments code) :
    SlotsIn R code := by
  induction h with
  | nil => exact .nil
  | cons _ _ he _ ih => exact ((he.slotsIn hR.declared).append (.basic _)).append ih

theorem AssignCode.slotsIn {a : Access} {value : Expr} {code : List Line} (h : AssignCode x a value code) :
    SlotsIn R code := by
  cases h with
  | name _ he htarget _ => exact ((he.slotsIn hR.declared).append (.conversion _)).append (htarget.slotsIn hR)
  | element _ hvalue _ _ _ _ hi =>
    exact (((hvalue.slotsIn hR.declared).append (.conversion _)).append
      ((hi.slotsIn hR.declared).append (.none rfl))).append (.none rfl)

theorem CallCode.slotsIn {name : String} {arguments : List Argument} {code : List Line}
    (h : CallCode x name arguments code) : SlotsIn R code := by
  cases h with
  | write _ _ h => exact (h.slotsIn hR).append (.basic _)
  | skip _ _ => exact (SlotsIn.basic _).append (.none rfl)
  | read _ _ h => exact h.slotsIn hR
  | function _ h => exact (h.slotsIn hR.declared).append (.none rfl)

end

mutual

theorem StmtCode.slotsIn (hR : x.SlotsAre R) {k k' : Counters} {s : Stmt} {code : List Line}
    (h : StmtCode x k s code k') : SlotsIn R code := by
  cases h with
  | compound h => exact h.slotsIn hR
  | assign h => exact h.slotsIn hR
  | call h => exact h.slotsIn hR
  | ifThen _ hc ht =>
    exact (((hc.slotsIn hR.declared).append (.none rfl)).append (ht.slotsIn hR)).append (.label _)
  | ifThenElse _ hc ht he =>
    exact ((((((hc.slotsIn hR.declared).append (.none rfl)).append (ht.slotsIn hR)).append (.none rfl)).append
      (.label _)).append (he.slotsIn hR)).append (.label _)
  | whileDo _ hc hb =>
    exact (((((SlotsIn.label _).append (hc.slotsIn hR.declared)).append (.none rfl)).append
      (hb.slotsIn hR)).append (.none rfl)).append (.label _)
  | @forDo _ _ _ v _ _ direction _ _ _ _ hr _ _ _ hi hf hb =>
    have hslot : R v.slot := hR.declared _ _ hr
    refine ((((((((hi.slotsIn hR.declared).append (.one hslot rfl)).append (.label _)).append
      (.one hslot rfl)).append (hf.slotsIn hR.declared)).append (.none rfl)).append (hb.slotsIn hR)).append
      (.emit ?_)).append (.label _)
    simpa [Op.slot?] using hslot

theorem StmtsCode.slotsIn (hR : x.SlotsAre R) {k k' : Counters} {ss : List Stmt} {code : List Line}
    (h : StmtsCode x k ss code k') : SlotsIn R code := by
  cases h with
  | nil => exact .nil
  | cons hs hr => exact (hs.slotsIn hR).append (hr.slotsIn hR)

end

end

/-! ## declarations -/

def Region.Has (g : Region) (n : Nat) : Prop := g.slot ≤ n ∧ n < g.slot + g.size

theorem Region.DeclaredBy.size_pos {type : TypeDenoter} {names : List String} {g : Region}
    (h : g.DeclaredBy type names) : 0 < g.size := by
  rcases h.shape with ⟨_, _, hsize, _⟩ | ⟨_, _, _, l, k, _, _, _, _, _, hsize, _⟩
  · rw [hsize]
    exact Nat.one_pos
  · unfold arraySize? at hsize
    simp only at hsize
    split at hsize
    · have hcount := Option.some.inj hsize
      omega
    · cases hsize

section
variable {R : Nat → Prop} {S : Scopes}

/-- The regions of some names of a declaration lie in `R`. -/
def Scopes.PlacedIn (S : Scopes) (R : Nat → Prop) (v : VarDecl) (names : List String) : Prop :=
  ∀ name ∈ names, ∃ g : Region, g.DeclaredBy v.type v.names ∧ S.resolve? name = some ⟨g.slot, g.shape⟩ ∧
    ∀ n, g.Has n → R n

theorem NamesCode.slotsIn {v : VarDecl} {names : List String} {code : List Line}
    (h : NamesCode S v.type names code) (hR : S.PlacedIn R v names) : SlotsIn R code := by
  induction h with
  | nil => exact .nil
  | @scalar t name names slot rest ht hr _ ih =>
    obtain ⟨⟨g, hdecl, hplace, hg⟩, hnames⟩ := List.forall_mem_cons.mp hR
    obtain ⟨rfl, hshape⟩ := Variable.mk.inj (Option.some.inj (hr.symm.trans hplace))
    have hslot : R g.slot := hg _ ⟨Nat.le_refl _, Nat.lt_add_of_pos_right hdecl.size_pos⟩
    have hstore : SlotsIn R (emit [.storeg (some g.slot)]) := .one hslot rfl
    have hinitial : SlotsIn R (emit [t.initial]) := by cases t <;> exact .none rfl
    exact (hinitial.append hstore).append (ih hnames)
  | @array low high element l h size t name names base rest htype ht hl hh hsize hr _ ih =>
    obtain ⟨⟨g, hdecl, hplace, hg⟩, hnames⟩ := List.forall_mem_cons.mp hR
    obtain ⟨rfl, hshape⟩ := Variable.mk.inj (Option.some.inj (hr.symm.trans hplace))
    -- the region has as many slots as the code stores to, both count from the same bounds
    have hsame : g.size = size := by
      rcases hdecl.shape with ⟨_, _, _, hscalar⟩ | ⟨_, _, _, _, _, _, htype', _, hl', hh', hsize', _⟩
      · cases hshape.trans hscalar
      · cases htype.symm.trans htype'
        cases hl.symm.trans hl'
        cases hh.symm.trans hh'
        exact Option.some.inj (hsize'.symm.trans hsize)
    have hstores : SlotsIn R (emit ((List.range' g.slot size).map fun slot => .storeg (some slot))) := by
      refine .stores fun n hn => hg n ?_
      rw [List.mem_range'_1, ← hsame] at hn
      exact hn
    have hpush : SlotsIn R (emit [.pushn size]) := .none rfl
    exact (hpush.append hstores).append (ih hnames)

theorem DeclarationsCode.slotsIn {vs : List VarDecl} {code : List Line} (h : DeclarationsCode S vs code)
    (hR : ∀ v ∈ vs, S.PlacedIn R v v.names) : SlotsIn R code := by
  induction h with
  | nil => exact .nil
  | cons hn _ ih =>
    obtain ⟨hv, hvs⟩ := List.forall_mem_cons.mp hR
    exact (hn.slotsIn hv).append (ih hvs)

theorem ParameterSlots.forall_mem (hR : ∀ id v, S.resolve? id = some v → R v.slot)
    {ps : List (String × DataType)} {slots : List Nat} (h : ParameterSlots S ps slots) : ∀ n ∈ slots, R n := by
  induction h with
  | nil => exact List.forall_mem_nil _
  | cons hr _ ih => exact List.forall_mem_cons.mpr ⟨hR _ _ hr, ih⟩

end

/-! ## functions and programs -/

section
variable {R : Nat → Prop} {L : Layout}

theorem RoutineCode.slotsIn {k k' : Counters} {r : Routine} {code : List Line} (h : RoutineCode L k r code k')
    (hR : (L.contextOf r).SlotsAre R)
    (hplaced : ∀ v ∈ r.block.declarations, (L.contextOf r).scopes.PlacedIn R v v.names) : SlotsIn R code := by
  obtain ⟨hparameters, hdeclarations, hstatements⟩ := h
  have hslots := hparameters.forall_mem hR.declared
  have hreturn : SlotsIn R (emit [.pushg (some r.activation.slot), .basic .ret]) :=
    SlotsIn.append (a := emit [.pushg _]) (.one (hR.result _ rfl) rfl) (.none rfl)
  exact ((((SlotsIn.label _).append (.stores fun n hn => hslots n (List.mem_reverse.mp hn))).append
    (hdeclarations.slotsIn hplaced)).append (hstatements.slotsIn hR)).append hreturn

theorem RoutinesCode.slotsIn {k k' : Counters} {rs : List Routine} {code : List Line}
    (h : RoutinesCode L k rs code k') (hR : ∀ r ∈ rs, (L.contextOf r).SlotsAre R)
    (hplaced : ∀ r ∈ rs, ∀ v ∈ r.block.declarations, (L.contextOf r).scopes.PlacedIn R v v.names) :
    SlotsIn R code := by
  induction h with
  | nil => exact .nil
  | cons hr _ ih =>
    obtain ⟨hR, hRs⟩ := List.forall_mem_cons.mp hR
    obtain ⟨hplaced, hrest⟩ := List.forall_mem_cons.mp hplaced
    exact (hr.slotsIn hR hplaced).append (ih hRs hrest)

theorem ProgramCode.slotsIn {p : Program} {code : List Line} (h : ProgramCode L p code)
    (hR : L.context.SlotsAre R) (hplaced : ∀ v ∈ p.block.declarations, L.scopes.PlacedIn R v v.names)
    (hroutines : ∀ r ∈ L.routines, (L.contextOf r).SlotsAre R ∧
      ∀ v ∈ r.block.declarations, (L.contextOf r).scopes.PlacedIn R v v.names) : SlotsIn R code := by
  obtain ⟨hdeclarations, hfunctions, hstatements⟩ := h
  exact ((((((hdeclarations.slotsIn hplaced).append (.none rfl)).append
    (hfunctions.slotsIn (fun r hr => (hroutines r hr).1) fun r hr => (hroutines r hr).2)).append
    (.label _)).append (.basic _)).append (hstatements.slotsIn hR)).append (.basic _)

end

end PascalStack
