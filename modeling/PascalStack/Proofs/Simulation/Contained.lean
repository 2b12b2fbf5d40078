import PascalStack.Proofs.Compiler.Labels
import PascalStack.Proofs.Machine.Frames
import PascalStack.Proofs.Simulation.Programs

/-!
# Where compiled code can go

* `Contained`            lines of code that only call functions, jump among themselves and write few slots;
* `ExprCode.contained`, `StmtCode.contained`, ...   the code of programs without arrays is such;
* `Contained.stays`      in their place such lines are left only by calls.
-/

namespace PascalStack

/-- Calls, returns and the end of a run. -/
def Basic.isTransfer : Basic → Bool
  | .call | .ret | .stop => true
  | _ => false

/-- An instruction that jumps only to labels of `J` and writes only slots of `W`. -/
def Op.Contained (J : String → Prop) (W : Nat → Prop) (o : Op String) : Prop :=
  o.fits = true ∧
    match o with
    | .pusha _ => False
    | .basic b => b.isTransfer = false
    | .storeg slot => ∃ n, slot = some n ∧ W n
    | .jump label | .jz label => J label
    | _ => True

/-- Lines of code that call only functions of `T`, jump only to labels of `J` and write only slots of
`W`. -/
inductive Contained (T J : String → Prop) (W : Nat → Prop) : List Line → Prop
  | nil : Contained T J W []
  | label {name : String} {rest : List Line} : Contained T J W rest →
      Contained T J W (.label name :: rest)
  | op {o : Op String} {rest : List Line} : o.Contained J W → Contained T J W rest →
      Contained T J W (.op o :: rest)
  | call {name : String} {rest : List Line} : T name → Contained T J W rest →
      Contained T J W (.op (.pusha name) :: .op (.basic .call) :: rest)

section
variable {T J : String → Prop} {W : Nat → Prop} {a b : List Line}

theorem Contained.append (ha : Contained T J W a) (hb : Contained T J W b) :
    Contained T J W (a ++ b) := by
  induction ha with
  | nil => exact hb
  | label _ ih => exact .label ih
  | op ho _ ih => exact .op ho ih
  | call hT _ ih => exact .call hT ih

theorem Contained.emit {ops : List (Op String)} (h : ∀ o ∈ ops, o.Contained J W) :
    Contained T J W (emit ops) := by
  induction ops with
  | nil => exact .nil
  | cons o ops ih =>
    exact .op (h o (List.mem_cons_self ..)) (ih fun o ho => h o (List.mem_cons_of_mem _ ho))

theorem Contained.basic {bs : List Basic} (h : bs.all (fun b => !b.isTransfer) = true) :
    Contained T J W (emitBasic bs) := by
  refine .emit fun o ho => ?_
  obtain ⟨b, hb, rfl⟩ := List.mem_map.mp ho
  exact ⟨rfl, Bool.not_eq_true' _ |>.mp (List.all_eq_true.mp h b hb)⟩

theorem Contained.one {o : Op String} (h : o.Contained J W) : Contained T J W (PascalStack.emit [o]) :=
  .op h .nil

theorem Contained.conversion (c : Option Conversion) : Contained T J W (emitConversion c) := by
  rcases c with _ | c
  · exact .nil
  · cases c <;> exact .one ⟨rfl, rfl⟩

theorem contained_pushg {n : Nat} (h : n < wordSize) : (Op.pushg (some n)).Contained J W :=
  ⟨decide_eq_true h, trivial⟩

theorem contained_storeg {n : Nat} (h : n < wordSize) (hW : W n) :
    (Op.storeg (some n)).Contained J W :=
  ⟨decide_eq_true h, n, rfl, hW⟩

theorem Contained.power {t : DataType} {base : List Line} (h : Contained T J W base) (n : Nat) :
    Contained T J W (powerCode t base n) := by
  cases n with
  | zero =>
    refine .one ?_
    unfold oneOf
    split <;> exact ⟨rfl, trivial⟩
  | succ n =>
    have hdup : Contained T J W (PascalStack.emit (List.replicate n (.dup 1))) :=
      .emit fun o ho => by rw [List.eq_of_mem_replicate ho]; exact ⟨rfl, trivial⟩
    refine (h.append hdup).append (.basic (List.all_eq_true.mpr fun b hb => ?_))
    rw [List.eq_of_mem_replicate hb]
    unfold multiplyOf
    split <;> rfl

end

/-! ## expressions -/

theorem Builtin.epilogue_plain (b : Builtin) : b.epilogue.all (fun b => !b.isTransfer) = true := by
  cases b <;> rfl

theorem BinaryOp.code_plain (op : BinaryOp) (a : Arithmetic) :
    (op.code a).all (fun b => !b.isTransfer) = true := by
  cases op <;> cases a <;> rfl

section
variable {T J : String → Prop} {W : Nat → Prop} {S : Scopes}

mutual

theorem ExprCode.contained (hT : ∀ name f, S.Callable name f → T f.label) (hfit : S.SlotsFit)
    {e : Expr} {code : List Line} (h : ExprCode S e code) :
    Contained T J W code := by
  cases h with
  | access h => exact h.contained hT hfit
  | @builtin _ _ b _ _ _ h => exact (h.contained hT hfit).append (.basic b.epilogue_plain)
  | call _ hf h => exact (h.contained hT hfit).append (.call (hT _ _ hf) .nil)
  | @binary op _ _ _ _ a _ _ _ _ _ hl hr =>
    exact ((((hl.contained hT hfit).append (.conversion _)).append
      (hr.contained hT hfit)).append (.conversion _)).append (.basic (op.code_plain a))
  | @signed sign _ t _ _ _ h =>
    refine (h.contained hT hfit).append ?_
    cases sign with
    | plus => exact .nil
    | minus =>
      cases t <;> exact .op ⟨rfl, trivial⟩ (.one ⟨rfl, rfl⟩)
  | unit => exact .power .nil 0
  | power _ _ _ h => exact (h.contained hT hfit).power _
  | not _ _ h => exact (h.contained hT hfit).append (.basic rfl)
  | @constant c => cases c <;> exact .one ⟨rfl, trivial⟩
  | set h => exact h.contained hT hfit

theorem AccessCode.contained (hT : ∀ name f, S.Callable name f → T f.label) (hfit : S.SlotsFit)
    {a : Access} {code : List Line} (h : AccessCode S a code) :
    Contained T J W code := by
  cases h with
  | truth _ => exact .one ⟨rfl, trivial⟩
  | plain _ hr _ => exact .one (contained_pushg (hfit _ _ hr))
  | function _ _ hf _ => exact .call (hT _ _ hf) .nil
  | element _ _ _ h =>
    refine ((h.contained hT hfit).append ?_).append (.one ⟨rfl, trivial⟩)
    exact .op ⟨rfl, trivial⟩ (.op ⟨rfl, rfl⟩ (.op ⟨rfl, trivial⟩ (.one ⟨rfl, rfl⟩)))
  | character hr _ _ h =>
    have hload : Contained T J W (emit [.pushg (some _)]) := .one (contained_pushg (hfit _ _ hr))
    refine (hload.append (h.contained hT hfit)).append ?_
    exact .op ⟨rfl, trivial⟩ (.op ⟨rfl, rfl⟩ (.one ⟨rfl, rfl⟩))

theorem ArgumentsCode.contained (hT : ∀ name f, S.Callable name f → T f.label) (hfit : S.SlotsFit)
    {ts : List DataType} {arguments : List Argument} {code : List Line}
    (h : ArgumentsCode S ts arguments code) : Contained T J W code := by
  cases h with
  | nil => exact .nil
  | cons _ _ he hr =>
    exact ((he.contained hT hfit).append (.conversion _)).append (hr.contained hT hfit)

theorem MembersCode.contained (hT : ∀ name f, S.Callable name f → T f.label) (hfit : S.SlotsFit)
    {members : List Member} {code : List Line} (h : MembersCode S members code) :
    Contained T J W code := by
  cases h with
  | nil => exact .nil
  | single he hr => exact (he.contained hT hfit).append (hr.contained hT hfit)
  | range hl hh hr =>
    exact ((hl.contained hT hfit).append (hh.contained hT hfit)).append
      (hr.contained hT hfit)

end

end

/-! ## statements -/

def Scopes.ArrayFree (S : Scopes) : Prop := ∀ id v, S.resolve? id = some v → v.type ≠ .array

/-- The slots of the variables in sight and of the result at hand. -/
def Context.Writes (x : Context) (n : Nat) : Prop :=
  (∃ a, x.activation = some a ∧ a.slot = n) ∨ ∃ id v, x.scopes.resolve? id = some v ∧ v.slot = n

section
variable {T J : String → Prop} {x : Context}

theorem Context.Targets.writes {id : String} {slot : Nat} {t : DataType} (h : x.Targets id slot t)
    (hfit : x.SlotsFit) : slot < wordSize ∧ x.Writes slot := by
  cases h with
  | result ha _ => exact ⟨hfit.result _ ha, .inl ⟨_, ha, rfl⟩⟩
  | declared _ hr => exact ⟨hfit.declared _ _ hr, .inr ⟨_, _, hr, rfl⟩⟩

theorem Context.Targets.contained {id : String} {slot : Nat} {t : DataType} (h : x.Targets id slot t)
    (hfit : x.SlotsFit) : Contained T J x.Writes (emit [.storeg (some slot)]) :=
  .one (contained_storeg (h.writes hfit).1 (h.writes hfit).2)

theorem contained_read {t : DataType} {ops : List (Op String)} (h : t.read? = some ops) :
    Contained T J x.Writes (emit ops) := by
  cases t <;> cases h <;> first
    | exact .nil
    | exact .one ⟨rfl, rfl⟩
    | exact .op ⟨rfl, trivial⟩ (.one ⟨rfl, rfl⟩)

theorem contained_write {t : DataType} {b : Basic} (h : t.write? = some b) :
    Contained T J x.Writes (emitBasic [b]) := by
  cases t <;> cases h <;> exact .one ⟨rfl, rfl⟩

theorem WritesCode.contained (hT : ∀ name f, x.scopes.Callable name f → T f.label) (hfit : x.SlotsFit)
    {arguments : List Argument} {code : List Line} (h : WritesCode x arguments code) :
    Contained T J x.Writes code := by
  induction h with
  | nil => exact .nil
  | cons _ hw he _ ih =>
    exact ((he.contained hT hfit.declared).append (contained_write hw)).append ih

variable (hT : ∀ name f, x.scopes.Callable name f → T f.label) (hfit : x.SlotsFit)
  (harray : x.scopes.ArrayFree)
include hfit harray

theorem ReadCode.contained {a : Access} {code : List Line} (h : ReadCode x a code) :
    Contained T J x.Writes code := by
  cases h with
  | name htarget hops =>
    exact ((Contained.basic rfl).append (contained_read hops)).append (htarget.contained hfit)
  | element hr hv _ _ _ => exact absurd hv (harray _ _ hr)

include hT

theorem AssignCode.contained {a : Access} {value : Expr} {code : List Line}
    (h : AssignCode x a value code) : Contained T J x.Writes code := by
  cases h with
  | name _ he htarget _ =>
    exact ((he.contained hT hfit.declared).append (.conversion _)).append (htarget.contained hfit)
  | element _ _ hr hv _ _ _ => exact absurd hv (harray _ _ hr)

theorem CallCode.contained {name : String} {arguments : List Argument} {code : List Line}
    (h : CallCode x name arguments code) : Contained T J x.Writes code := by
  cases h with
  | write _ _ h => exact (h.contained hT hfit).append (.basic (Builtin.epilogue_plain _))
  | skip _ _ => exact (Contained.basic rfl).append (.one ⟨rfl, trivial⟩)
  | read _ _ h => exact h.contained hfit harray
  | function _ h => exact (h.contained hT hfit.declared).append (.one ⟨rfl, trivial⟩)

omit hT hfit harray

mutual

theorem StmtCode.contained (hT : ∀ name f, x.scopes.Callable name f → T f.label) (hfit : x.SlotsFit)
    (harray : x.scopes.ArrayFree) {k k' : Counters} {s : Stmt} {code : List Line}
    (h : StmtCode x k s code k') (hJ : ∀ l ∈ labelsOf code, J l) : Contained T J x.Writes code := by
  cases h with
  | compound h => exact h.contained hT hfit harray hJ
  | assign h => exact h.contained hT hfit harray
  | call h => exact h.contained hT hfit harray
  | ifThen _ hc ht =>
    simp only [ifCode, labelsOf_append, labelsOf_label, List.mem_append, List.mem_singleton] at hJ
    refine (((hc.contained hT hfit.declared).append (.one ⟨rfl, ?_⟩)).append
      (ht.contained hT hfit harray ?_)).append (.label .nil)
    · exact hJ _ (.inr rfl)
    · exact fun l hl => hJ l (.inl (.inr hl))
  | ifThenElse _ hc ht he =>
    simp only [ifElseCode, labelsOf_append, labelsOf_label, List.mem_append, List.mem_singleton] at hJ
    refine ((((((hc.contained hT hfit.declared).append (.one ⟨rfl, ?_⟩)).append
      (ht.contained hT hfit harray ?_)).append (.one ⟨rfl, ?_⟩)).append (.label .nil)).append
      (he.contained hT hfit harray ?_)).append (.label .nil)
    · exact hJ _ (.inl (.inl (.inr rfl)))
    · exact fun l hl => hJ l (.inl (.inl (.inl (.inl (.inr hl)))))
    · exact hJ _ (.inr rfl)
    · exact fun l hl => hJ l (.inl (.inr hl))
  | whileDo _ hc hb =>
    simp only [whileCode, labelsOf_append, labelsOf_label, List.mem_append, List.mem_singleton] at hJ
    refine (((((Contained.label .nil).append (hc.contained hT hfit.declared)).append
      (.one ⟨rfl, ?_⟩)).append (hb.contained hT hfit harray ?_)).append (.one ⟨rfl, ?_⟩)).append
      (.label .nil)
    · exact hJ _ (.inr rfl)
    · exact fun l hl => hJ l (.inl (.inl (.inr hl)))
    · exact hJ _ (.inl (.inl (.inl (.inl (.inl rfl)))))
  | @forDo _ _ _ v _ _ direction _ _ _ _ hr _ _ _ hi hf hb =>
    have hslot := hfit.declared _ _ hr
    have hstore : (Op.storeg (some v.slot)).Contained J x.Writes :=
      contained_storeg hslot (.inr ⟨_, _, hr, rfl⟩)
    have hload : (Op.pushg (some v.slot)).Contained J x.Writes := contained_pushg hslot
    simp only [forCode, labelsOf_append, labelsOf_label, List.mem_append, List.mem_singleton] at hJ
    refine ((((((((hi.contained hT hfit.declared).append (.one hstore)).append
      (.label .nil)).append (.one hload)).append (hf.contained hT hfit.declared)).append
      (.op ⟨rfl, rfl⟩ (.one ⟨rfl, ?_⟩))).append (hb.contained hT hfit harray ?_)).append
      (.op hload (.op ⟨rfl, trivial⟩ (.op ⟨rfl, rfl⟩ (.op hstore (.one ⟨rfl, ?_⟩)))))).append (.label .nil)
    · exact hJ _ (.inr rfl)
    · exact fun l hl => hJ l (.inl (.inl (.inr hl)))
    · exact hJ _ (.inl (.inl (.inl (.inl (.inl (.inl (.inr rfl)))))))

theorem StmtsCode.contained (hT : ∀ name f, x.scopes.Callable name f → T f.label) (hfit : x.SlotsFit)
    (harray : x.scopes.ArrayFree) {k k' : Counters} {ss : List Stmt} {code : List Line}
    (h : StmtsCode x k ss code k') (hJ : ∀ l ∈ labelsOf code, J l) : Contained T J x.Writes code := by
  cases h with
  | nil => exact .nil
  | cons hs hr =>
    simp only [labelsOf_append, List.mem_append] at hJ
    exact (hs.contained hT hfit harray fun l hl => hJ l (.inl hl)).append
      (hr.contained hT hfit harray fun l hl => hJ l (.inr hl))

end

/-! ## declarations -/

theorem NamesCode.contained (hfit : x.SlotsFit) (harray : x.scopes.ArrayFree) {type : TypeDenoter}
    {names : List String} {code : List Line} (h : NamesCode x.scopes type names code) :
    Contained T J x.Writes code := by
  induction h with
  | nil => exact .nil
  | @scalar t _ _ _ _ _ hr _ ih =>
    have hstore := contained_storeg (J := J) (W := x.Writes) (hfit.declared _ _ hr) (.inr ⟨_, _, hr, rfl⟩)
    refine Contained.append (.op ?_ (.one hstore)) ih
    cases t <;> exact ⟨rfl, trivial⟩
  | array _ _ _ _ _ hr _ _ => exact absurd rfl (harray _ _ hr)

theorem DeclarationsCode.contained (hfit : x.SlotsFit) (harray : x.scopes.ArrayFree)
    {vs : List VarDecl} {code : List Line} (h : DeclarationsCode x.scopes vs code) :
    Contained T J x.Writes code := by
  induction h with
  | nil => exact .nil
  | cons hn _ ih => exact (hn.contained hfit harray).append ih

theorem ParameterSlots.contained (hfit : x.SlotsFit) {ps : List (String × DataType)} {slots : List Nat}
    (h : ParameterSlots x.scopes ps slots) :
    Contained T J x.Writes (emit (slots.reverse.map fun slot => .storeg (some slot))) := by
  have hslots : ∀ n ∈ slots, n < wordSize ∧ x.Writes n := by
    induction h with
    | nil => nofun
    | cons hr _ ih =>
      exact List.forall_mem_cons.mpr ⟨⟨hfit.declared _ _ hr, .inr ⟨_, _, hr, rfl⟩⟩, ih⟩
  refine .emit fun o ho => ?_
  obtain ⟨n, hn, rfl⟩ := List.mem_map.mp ho
  obtain ⟨hlt, hW⟩ := hslots n (List.mem_reverse.mp hn)
  exact contained_storeg hlt hW

end

/-! ## lines in their places -/

section
variable {code : Code} {targets : String → Option Nat} {T J : String → Prop} {W In entry : Nat → Prop}
  {lines : List Line} {a b : Nat}

theorem Placed.le (h : Placed code targets a lines b) : a ≤ b := by
  induction lines generalizing a with
  | nil => exact Nat.le_of_eq h
  | cons line rest ih =>
    cases line with
    | label name => exact ih h.2
    | op o => exact Nat.le_trans (Nat.le_succ a) (ih h.2)

/-- The instruction at a position, if it can be read. -/
theorem Placed.resolved {o : Op String} {rest : List Line}
    (h : Placed code targets a (.op o :: rest) b) (hfits : o.fits = true) {op : Op Nat}
    (hop : code[a]? = some (.ok op)) : o.resolve? targets = some op := by
  obtain ⟨op', hres, hcode⟩ := h.1 hfits
  rw [hop] at hcode
  cases hcode
  exact hres

theorem Op.Contained.not_call {o : Op String} {op : Op Nat} (h : o.Contained J W)
    (hres : o.resolve? targets = some op) : op ≠ .basic .call := by
  rintro rfl
  cases o with
  | basic b =>
    cases hres
    exact absurd h.2 nofun
  | pusha label | jump label | jz label =>
    obtain ⟨_, _, he⟩ := Option.map_eq_some_iff.mp hres
    cases he
  | _ => cases hres

/-- The first of such lines is no call. -/
theorem Contained.not_isCall (h : Contained T J W lines) (hp : Placed code targets a lines b)
    (hlt : a < b) : ¬ IsCall code a := by
  induction h with
  | nil => exact absurd hp (Nat.ne_of_lt hlt)
  | label _ ih => exact ih hp.2
  | op ho _ _ => exact fun hcall => ho.not_call (hp.resolved ho.1 hcall) rfl
  | call _ _ _ =>
    intro hcall
    obtain ⟨_, _, he⟩ := Option.map_eq_some_iff.mp (hp.resolved rfl hcall)
    cases he

/-- A label among such lines stands before no call. -/
theorem Contained.label_target (h : Contained T J W lines) (hp : Placed code targets a lines b)
    {l : String} (hl : l ∈ labelsOf lines) :
    ∃ target, targets l = some target ∧ a ≤ target ∧ target ≤ b ∧ (target < b → ¬ IsCall code target) := by
  induction h generalizing a with
  | nil => cases hl
  | @label name rest h ih =>
    rcases List.mem_cons.mp hl with rfl | hl
    · exact ⟨a, hp.1, Nat.le_refl a, Placed.le hp.2, h.not_isCall hp.2⟩
    · exact ih hp.2 hl
  | op _ _ ih =>
    obtain ⟨target, ht, hle, hrest⟩ := ih hp.2 hl
    exact ⟨target, ht, Nat.le_of_succ_le hle, hrest⟩
  | call _ _ ih =>
    obtain ⟨target, ht, hle, hrest⟩ := ih hp.2.2 hl
    exact ⟨target, ht, Nat.le_trans (Nat.le_add_right a 2) hle, hrest⟩

theorem Op.Contained.stays {o : Op String} {op : Op Nat} {p : Nat} (h : o.Contained J W)
    (hres : o.resolve? targets = some op)
    (hJ : ∀ l target, J l → targets l = some target → In target ∧ ¬ IsCall code target)
    (hnext : In (p + 1)) : op.Stays code In W entry p := by
  obtain ⟨-, h⟩ := h
  cases o with
  | pusha label => exact h.elim
  | jump label =>
    obtain ⟨target, ht, rfl⟩ := Option.map_eq_some_iff.mp hres
    exact hJ label target h ht
  | jz label =>
    obtain ⟨target, ht, rfl⟩ := Option.map_eq_some_iff.mp hres
    exact ⟨hJ label target h ht, hnext⟩
  | storeg slot =>
    cases hres
    exact ⟨h, hnext⟩
  | basic b =>
    cases hres
    cases b with
    | call | ret | stop => cases h
    | _ => exact hnext
  | _ =>
    cases hres
    exact hnext

/-- In their place such lines are left only by calls. -/
theorem Contained.stays (h : Contained T J W lines) (hp : Placed code targets a lines b)
    (hT : ∀ l e, T l → targets l = some e → entry e)
    (hJ : ∀ l target, J l → targets l = some target → In target ∧ ¬ IsCall code target)
    (hin : ∀ p, a ≤ p → p ≤ b → In p) :
    ∀ p op, a ≤ p → p < b → code[p]? = some (.ok op) → op.Stays code In W entry p := by
  induction h generalizing a with
  | nil =>
    intro p op hle hlt
    have hab : a = b := hp
    omega
  | label _ ih => exact ih hp.2 hin
  | op ho _ ih =>
    intro p op hle hlt hop
    rcases Nat.eq_or_lt_of_le hle with rfl | hlt'
    · exact ho.stays (hp.resolved ho.1 hop) hJ (hin _ (Nat.le_succ _) hlt)
    · exact ih hp.2 (fun p hle hb => hin p (Nat.le_of_succ_le hle) hb) p op hlt' hlt hop
  | @call name rest hname _ ih =>
    obtain ⟨o, hpush, hcode⟩ := hp.1 rfl
    obtain ⟨e, he, rfl⟩ := Option.map_eq_some_iff.mp hpush
    intro p op hle hlt hop
    rcases Nat.eq_or_lt_of_le hle with rfl | hlt'
    · rw [hop] at hcode
      cases hcode
      exact hin _ (Nat.le_succ _) hlt
    · rcases Nat.eq_or_lt_of_le hlt' with rfl | hlt''
      · cases hp.2.resolved rfl hop
        exact ⟨⟨e, a, rfl, hcode, hT name e hname he⟩, hin _ (by omega) hlt⟩
      · exact ih hp.2.2 (fun p hle hb => hin p (by omega) hb) p op hlt'' hlt hop

end

end PascalStack
