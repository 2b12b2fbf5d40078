import PascalStack.Proofs.Compiler.Programs

/-!
# Instructions that take their slot from the stack

* `Op.isIndirect`    loads and stores whose slot is on the stack;
* `Indexed`          lines of code in which they come only right after the address of an array element;
* `ExprCode.indexed`, `StmtCode.indexed`, ..., `ProgramCode.indexed`   compiled code is such;
* `Indexed.split`    the instructions before one of them.
-/

namespace PascalStack

/-- Loads and stores whose slot is on the stack. -/
def Op.isIndirect {α : Type} : Op α → Bool
  | .pushg none | .storeg none | .load _ => true
  | _ => false

/-- Lines in which a slot is taken from the stack only right after it was computed from an index, for a
variable of `A`. -/
inductive Indexed (A : Variable → Prop) : List Line → Prop
  | nil : Indexed A []
  | label {name : String} {rest : List Line} : Indexed A rest → Indexed A (.label name :: rest)
  | op {o : Op String} {rest : List Line} : o.isIndirect = false → Indexed A rest →
      Indexed A (.op o :: rest)
  | element {v : Variable} {o : Op String} {rest : List Line} : A v → (o = .pushg none ∨ o = .storeg none) →
      Indexed A rest → Indexed A (addressCode v ++ .op o :: rest)

namespace Indexed
variable {A : Variable → Prop} {a b : List Line}

theorem append (ha : Indexed A a) (hb : Indexed A b) : Indexed A (a ++ b) := by
  induction ha with
  | nil => exact hb
  | label _ ih => exact .label ih
  | op ho _ ih => exact .op ho ih
  | element hv ho _ ih =>
    rw [List.append_assoc]
    exact .element hv ho ih

theorem emit {ops : List (Op String)} (h : ops.all (fun o => !o.isIndirect) = true) :
    Indexed A (emit ops) := by
  induction ops with
  | nil => exact .nil
  | cons o ops ih =>
    rw [List.all_cons, Bool.and_eq_true, Bool.not_eq_true'] at h
    exact .op h.1 (ih h.2)

theorem basic (bs : List Basic) : Indexed A (emitBasic bs) := by
  refine .emit (List.all_eq_true.mpr fun o ho => ?_)
  obtain ⟨b, _, rfl⟩ := List.mem_map.mp ho
  rfl

theorem one {o : Op String} (h : o.isIndirect = false) : Indexed A (PascalStack.emit [o]) := .op h .nil

theorem call (label : String) : Indexed A (callCode label) := .emit rfl

theorem conversion (c : Option Conversion) : Indexed A (emitConversion c) := by
  rcases c with _ | c
  · exact .nil
  · cases c <;> exact .one rfl

/-- The code of an index, then the address, then the access. -/
theorem access {v : Variable} {o : Op String} (ha : Indexed A a) (hv : A v)
    (ho : o = .pushg none ∨ o = .storeg none) : Indexed A (a ++ addressCode v ++ PascalStack.emit [o]) := by
  rw [List.append_assoc]
  exact ha.append (.element hv ho .nil)

theorem power {t : DataType} (h : Indexed A a) (n : Nat) : Indexed A (powerCode t a n) := by
  cases n with
  | zero =>
    refine .one ?_
    unfold oneOf
    split <;> rfl
  | succ n =>
    refine (h.append (.emit (List.all_eq_true.mpr fun o ho => ?_))).append (.basic _)
    rw [List.eq_of_mem_replicate ho]
    rfl

end Indexed

/-- Before an instruction that takes its slot from the stack stands the code of an address. -/
theorem Indexed.split {A : Variable → Prop} {lines before after : List Line} {o : Op String}
    (h : Indexed A lines) (hlines : lines = before ++ .op o :: after) (ho : o.isIndirect = true) :
    ∃ first v, before = first ++ addressCode v ∧ A v ∧ (o = .pushg none ∨ o = .storeg none) := by
  induction h generalizing before with
  | nil => cases before <;> cases hlines
  | @label name rest _ ih =>
    cases before with
    | nil => cases hlines
    | cons line before =>
      rw [List.cons_append] at hlines
      obtain ⟨first, v, rfl, hv⟩ := ih (List.cons.inj hlines).2
      exact ⟨line :: first, v, rfl, hv⟩
  | @op o' rest ho' _ ih =>
    cases before with
    | nil =>
      cases hlines
      rw [ho'] at ho
      cases ho
    | cons line before =>
      rw [List.cons_append] at hlines
      obtain ⟨first, v, rfl, hv⟩ := ih (List.cons.inj hlines).2
      exact ⟨line :: first, v, rfl, hv⟩
  | @element v o' rest hv ho' _ ih =>
    rcases List.append_eq_append_iff.mp hlines with ⟨more, rfl, hmore⟩ | ⟨more, haddress, hmore⟩
    · cases more with
      | nil =>
        cases hmore
        exact ⟨[], v, List.append_nil _, hv, ho'⟩
      | cons line more =>
        rw [List.cons_append] at hmore
        obtain ⟨first, w, rfl, hw⟩ := ih (List.cons.inj hmore).2
        exact ⟨addressCode v ++ line :: first, w, by simp, hw⟩
    · cases more with
      | nil =>
        cases hmore
        rw [List.append_nil] at haddress
        exact ⟨[], v, haddress.symm, hv, ho'⟩
      | cons line more =>
        -- the instructions of an address name no slot at all
        have hmem : Line.op o ∈ addressCode v := by
          rw [haddress, (List.cons.inj hmore).1]
          exact List.mem_append_right _ (List.mem_cons_self ..)
        simp only [addressCode, PascalStack.emit, List.map_cons, List.map_nil, List.mem_cons,
          List.not_mem_nil, Line.op.injEq, or_false] at hmem
        rcases hmem with rfl | rfl | rfl | rfl <;> cases ho

/-! ## expressions -/

section
variable {A : Variable → Prop} {S : Scopes}

mutual

theorem ExprCode.indexed (hA : ∀ id v, S.resolve? id = some v → v.type = .array → A v) {e : Expr}
    {code : List Line} (h : ExprCode S e code) : Indexed A code := by
  cases h with
  | access h => exact h.indexed hA
  | builtin _ _ h => exact (h.indexed hA).append (.basic _)
  | call _ _ h => exact (h.indexed hA).append (.call _)
  | binary _ _ _ hl hr =>
    exact ((((hl.indexed hA).append (.conversion _)).append (hr.indexed hA)).append (.conversion _)).append
      (.basic _)
  | @signed sign _ t _ _ _ h =>
    refine (h.indexed hA).append ?_
    cases sign with
    | plus => exact .nil
    | minus => cases t <;> exact .emit rfl
  | unit => exact .power .nil 0
  | power _ _ _ h => exact (h.indexed hA).power _
  | not _ _ h => exact (h.indexed hA).append (.basic _)
  | @constant c => cases c <;> exact .one rfl
  | set h => exact h.indexed hA

theorem AccessCode.indexed (hA : ∀ id v, S.resolve? id = some v → v.type = .array → A v) {a : Access}
    {code : List Line} (h : AccessCode S a code) : Indexed A code := by
  cases h with
  | truth _ => exact .one rfl
  | plain _ _ _ => exact .one rfl
  | function _ _ _ _ => exact .call _
  | element hr hv _ h => exact (h.indexed hA).access (hA _ _ hr hv) (.inl rfl)
  | character _ _ _ h => exact ((Indexed.one rfl).append (h.indexed hA)).append (.emit rfl)

theorem ArgumentsCode.indexed (hA : ∀ id v, S.resolve? id = some v → v.type = .array → A v)
    {ts : List DataType} {arguments : List Argument} {code : List Line}
    (h : ArgumentsCode S ts arguments code) : Indexed A code := by
  cases h with
  | nil => exact .nil
  | cons _ _ he hr => exact ((he.indexed hA).append (.conversion _)).append (hr.indexed hA)

theorem MembersCode.indexed (hA : ∀ id v, S.resolve? id = some v → v.type = .array → A v)
    {members : List Member} {code : List Line} (h : MembersCode S members code) : Indexed A code := by
  cases h with
  | nil => exact .nil
  | single he hr => exact (he.indexed hA).append (hr.indexed hA)
  | range hl hh hr => exact ((hl.indexed hA).append (hh.indexed hA)).append (hr.indexed hA)

end

end

/-! ## statements -/

section
variable {A : Variable → Prop} {x : Context}

theorem Indexed.read {t : DataType} {ops : List (Op String)} (h : t.read? = some ops) :
    Indexed A (PascalStack.emit ops) := by
  cases t <;> cases h <;> exact .emit rfl

section
variable (hA : ∀ id v, x.scopes.resolve? id = some v → v.type = .array → A v)
include hA

theorem ReadCode.indexed {a : Access} {code : List Line} (h : ReadCode x a code) : Indexed A code := by
  cases h with
  | name _ hops => exact ((Indexed.basic _).append (.read hops)).append (.one rfl)
  | element hr hv hops _ he =>
    rw [← List.append_assoc]
    exact (((Indexed.basic _).append (.read hops)).append (he.indexed hA)).access (hA _ _ hr hv) (.inr rfl)

theorem WritesCode.indexed {arguments : List Argument} {code : List Line} (h : WritesCode x arguments code) :
    Indexed A code := by
  induction h with
  | nil => exact .nil
  | cons _ _ he _ ih => exact ((he.indexed hA).append (.basic _)).append ih

theorem AssignCode.indexed {a : Access} {value : Expr} {code : List Line} (h : AssignCode x a value code) :
    Indexed A code := by
  cases h with
  | name _ he _ _ => exact ((he.indexed hA).append (.conversion _)).append (.one rfl)
  | element _ hvalue hr hv _ _ hi =>
    rw [← List.append_assoc]
    exact (((hvalue.indexed hA).append (.conversion _)).append (hi.indexed hA)).access (hA _ _ hr hv) (.inr rfl)

theorem CallCode.indexed {name : String} {arguments : List Argument} {code : List Line}
    (h : CallCode x name arguments code) : Indexed A code := by
  cases h with
  | write _ _ h => exact (h.indexed hA).append (.basic _)
  | skip _ _ => exact (Indexed.basic _).append (.one rfl)
  | read _ _ h => exact h.indexed hA
  | function _ h => exact (h.indexed hA).append (.one rfl)

end

mutual

theorem StmtCode.indexed (hA : ∀ id v, x.scopes.resolve? id = some v → v.type = .array → A v)
    {k k' : Counters} {s : Stmt} {code : List Line} (h : StmtCode x k s code k') : Indexed A code := by
  cases h with
  | compound h => exact h.indexed hA
  | assign h => exact h.indexed hA
  | call h => exact h.indexed hA
  | ifThen _ hc ht => exact (((hc.indexed hA).append (.one rfl)).append (ht.indexed hA)).append (.label .nil)
  | ifThenElse _ hc ht he =>
    exact ((((((hc.indexed hA).append (.one rfl)).append (ht.indexed hA)).append (.one rfl)).append
      (.label .nil)).append (he.indexed hA)).append (.label .nil)
  | whileDo _ hc hb =>
    exact (((((Indexed.label .nil).append (hc.indexed hA)).append (.one rfl)).append (hb.indexed hA)).append
      (.one rfl)).append (.label .nil)
  | forDo _ _ _ _ hi hf hb =>
    exact ((((((((hi.indexed hA).append (.one rfl)).append (.label .nil)).append (.one rfl)).append
      (hf.indexed hA)).append (.emit rfl)).append (hb.indexed hA)).append (.emit rfl)).append (.label .nil)

theorem StmtsCode.indexed (hA : ∀ id v, x.scopes.resolve? id = some v → v.type = .array → A v)
    {k k' : Counters} {ss : List Stmt} {code : List Line} (h : StmtsCode x k ss code k') : Indexed A code := by
  cases h with
  | nil => exact .nil
  | cons hs hr => exact (hs.indexed hA).append (hr.indexed hA)

end

end

/-! ## declarations and programs -/

section
variable {A : Variable → Prop}

theorem Indexed.stores (slots : List Nat) :
    Indexed A (PascalStack.emit (slots.map fun slot => .storeg (some slot))) := by
  refine .emit (List.all_eq_true.mpr fun o ho => ?_)
  obtain ⟨n, _, rfl⟩ := List.mem_map.mp ho
  rfl

theorem NamesCode.indexed {S : Scopes} {type : TypeDenoter} {names : List String} {code : List Line}
    (h : NamesCode S type names code) : Indexed A code := by
  induction h with
  | nil => exact .nil
  | @scalar t _ _ _ _ _ _ _ ih =>
    refine Indexed.append ?_ ih
    cases t <;> exact .emit rfl
  | array _ _ _ _ _ _ _ ih => exact Indexed.append (.op rfl (.stores _)) ih

theorem DeclarationsCode.indexed {S : Scopes} {vs : List VarDecl} {code : List Line}
    (h : DeclarationsCode S vs code) : Indexed A code := by
  induction h with
  | nil => exact .nil
  | cons hn _ ih => exact hn.indexed.append ih

variable {L : Layout}

/-- The arrays in sight in the main block and in the functions. -/
def Layout.ArrayInSight (L : Layout) (v : Variable) : Prop :=
  v.type = .array ∧ ∃ (S : Scopes) (id : String), S.locals = L.scopes.locals ∧ S.globals = L.scopes.globals ∧ S.resolve? id = some v

theorem RoutineCode.indexed {k k' : Counters} {r : Routine} {code : List Line} (h : RoutineCode L k r code k') :
    Indexed L.ArrayInSight code := by
  obtain ⟨_, hdeclarations, hstatements⟩ := h
  have hbody := hstatements.indexed (A := L.ArrayInSight) fun id v hr hv => ⟨hv, (L.contextOf r).scopes, id, rfl, rfl, hr⟩
  exact ((((Indexed.label .nil).append (.stores _)).append hdeclarations.indexed).append hbody).append (.emit rfl)

theorem RoutinesCode.indexed {k k' : Counters} {rs : List Routine} {code : List Line}
    (h : RoutinesCode L k rs code k') : Indexed L.ArrayInSight code := by
  induction h with
  | nil => exact .nil
  | cons hr _ ih => exact hr.indexed.append ih

theorem ProgramCode.indexed {p : Program} {code : List Line} (h : ProgramCode L p code) :
    Indexed L.ArrayInSight code := by
  obtain ⟨hdeclarations, hroutines, hstatements⟩ := h
  have hbody := hstatements.indexed (A := L.ArrayInSight) fun id v hr hv => ⟨hv, _, id, rfl, rfl, hr⟩
  exact (((((hdeclarations.indexed.append (.one rfl)).append hroutines.indexed).append (.label .nil)).append
    (.basic _)).append hbody).append (.basic _)

end

end PascalStack
