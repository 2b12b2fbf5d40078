import PascalStack.Compiler.Program
import PascalStack.Proofs.Machine.Operands

/-!
# Trees and scopes in small letters

* `foldAscii_foldAscii`, `foldName_foldAscii`   names in small letters are looked up as they were;
* `Expr.small`, `Stmt.small`, ..., `Program.small`   trees with all identifiers in small letters;
* `smallCode`      code with its labels, and the labels it pushes, in small letters;
* `Scopes.small`, `Compiler.small`   what is known in the middle of a compilation, with the names of
                   functions and of their parameters in small letters.
-/

namespace PascalStack

/-! ## small letters -/

theorem toLower_eq_self {c : Char} (h : 128 ≤ c.toNat) : c.toLower = c := by
  unfold Char.toLower
  rw [dif_neg]
  rintro ⟨-, hle⟩
  have hnat : c.toNat ≤ 90 := UInt32.le_iff_toNat_le.mp hle
  omega

/-- What holds of the characters of ASCII and their small letters holds of all characters. -/
theorem forall_toLower {P : Char → Char → Prop} (hascii : ∀ n < 128, P (Char.ofNat n) (Char.ofNat n).toLower)
    (hsame : ∀ c, P c c) (c : Char) : P c c.toLower := by
  by_cases h : c.toNat < 128
  · have hc := hascii c.toNat h
    rwa [Char.ofNat_toNat] at hc
  · rw [toLower_eq_self (Nat.le_of_not_lt h)]
    exact hsame c

theorem toLower_toLower (c : Char) : c.toLower.toLower = c.toLower :=
  forall_toLower (P := fun c d => d.toLower = c.toLower) (by decide) (fun _ => rfl) c

namespace Text

def isLetterCode (n : Nat) : Bool := 65 ≤ n && n ≤ 90 || 97 ≤ n && n ≤ 122

theorem toLower_letter (c : Char) :
    c.toLower = c ∨ isLetterCode c.toNat = true ∧ isLetterCode c.toLower.toNat = true :=
  forall_toLower (P := fun c d => d = c ∨ isLetterCode c.toNat = true ∧ isLetterCode d.toNat = true)
    (by decide) (fun _ => .inl rfl) c

theorem isCased_of_letter {c : Char} (h : isLetterCode c.toNat = true) : isCased c = true := by
  unfold isCased inRanges casedRanges
  unfold isLetterCode at h
  rw [List.any_cons, List.any_cons, ← Bool.or_assoc, h, Bool.true_or]

theorem isIgnorable_of_letter {c : Char} (h : isLetterCode c.toNat = true) : isIgnorable c = false := by
  have houtside : ignorableRanges.all (fun r => r.2 < 65 || 122 < r.1 || 90 < r.1 && r.2 < 97) = true := by
    decide +kernel
  refine List.any_eq_false.mpr fun r hr => ?_
  have hr' := List.all_eq_true.mp houtside r hr
  unfold isLetterCode at h
  simp only [Bool.or_eq_true, Bool.and_eq_true, decide_eq_true_eq] at h hr' ⊢
  omega

theorem isCased_toLower (c : Char) : isCased c.toLower = isCased c := by
  rcases toLower_letter c with h | ⟨hc, hl⟩
  · rw [h]
  · rw [isCased_of_letter hc, isCased_of_letter hl]

theorem isIgnorable_toLower (c : Char) : isIgnorable c.toLower = isIgnorable c := by
  rcases toLower_letter c with h | ⟨hc, hl⟩
  · rw [h]
  · rw [isIgnorable_of_letter hc, isIgnorable_of_letter hl]

theorem meetsCased_map_toLower (cs : List Char) : meetsCased (cs.map Char.toLower) = meetsCased cs := by
  induction cs with
  | nil => rfl
  | cons c cs ih =>
    unfold meetsCased at ih ⊢
    rw [List.map_cons, List.dropWhile_cons, List.dropWhile_cons, isIgnorable_toLower]
    cases isIgnorable c with
    | true => exact ih
    | false => exact isCased_toLower c

/-- The small form of a character does not depend on capital letters of ASCII. -/
theorem lower_toLower (before : List Char) (c : Char) (after : List Char) :
    lower (before.map Char.toLower) c.toLower (after.map Char.toLower) = lower before c after := by
  by_cases h : c.toNat < 128
  · have hlow : c.toLower.toNat < 128 :=
      forall_toLower (P := fun c d => c.toNat < 128 → d.toNat < 128) (by decide) (fun _ h => h) c h
    rw [lower, lower, if_pos h, if_pos hlow, toLower_toLower]
  · rw [toLower_eq_self (Nat.le_of_not_lt h), lower, lower, meetsCased_map_toLower, meetsCased_map_toLower]

theorem lowerFrom_map_toLower (before cs : List Char) :
    lowerFrom (before.map Char.toLower) (cs.map Char.toLower) = lowerFrom before cs := by
  induction cs generalizing before with
  | nil => rfl
  | cons c cs ih =>
    have hrest := ih (c :: before)
    rw [List.map_cons] at hrest
    rw [List.map_cons, lowerFrom, lowerFrom, lower_toLower, hrest]

end Text

@[simp] theorem foldAscii_foldAscii (name : String) : foldAscii (foldAscii name) = foldAscii name := by
  unfold foldAscii
  rw [String.toList_ofList, List.map_map]
  congr 1
  exact List.map_congr_left fun c _ => toLower_toLower c

@[simp] theorem foldName_foldAscii (name : String) : foldName (foldAscii name) = foldName name := by
  unfold foldName foldAscii
  rw [String.toList_ofList]
  exact congrArg String.ofList (Text.lowerFrom_map_toLower [] name.toList)

/-- Words of small letters and digits stay as they are. -/
theorem foldAscii_eq_self {name : String} (h : ∀ c ∈ name.toList, c.toLower = c) : foldAscii name = name := by
  unfold foldAscii
  rw [List.map_congr_left h, List.map_id', String.ofList_toList]

theorem toLower_of_isDigit {c : Char} (h : c.isDigit = true) : c.toLower = c :=
  forall_toLower (P := fun c d => c.isDigit = true → d = c) (by decide) (fun _ _ => rfl) c h

theorem foldAscii_append_naturalText {word : String} (h : ∀ c ∈ word.toList, c.toLower = c) (k : Nat) :
    foldAscii (word ++ naturalText k) = word ++ naturalText k := by
  refine foldAscii_eq_self fun c hc => ?_
  rw [String.toList_append] at hc
  rcases List.mem_append.mp hc with hc | hc
  · exact h c hc
  · exact toLower_of_isDigit (isDigit_of_mem_naturalText hc)

/-! ## trees -/

mutual

def Expr.small : Expr → Expr
  | .access a => .access a.small
  | .call name arguments => .call (foldAscii name) (smallArguments arguments)
  | .binary op left right => .binary op left.small right.small
  | .signed sign operand => .signed sign operand.small
  | .power base exponent => .power base.small exponent.small
  | .not operand => .not operand.small
  | .constant c => .constant c
  | .set members => .set (smallMembers members)

def Access.small : Access → Access
  | .name id => .name (foldAscii id)
  | .index base indices => .index base.small (smallExprs indices)
  | .field base name => .field base.small (foldAscii name)
  | .deref base => .deref base.small

def smallExprs : List Expr → List Expr
  | [] => []
  | e :: es => e.small :: smallExprs es

def Argument.small : Argument → Argument
  | .value e => .value e.small
  | .wide e width => .wide e.small width.small
  | .precise e width precision => .precise e.small width.small precision.small

def smallArguments : List Argument → List Argument
  | [] => []
  | a :: arguments => a.small :: smallArguments arguments

def Member.small : Member → Member
  | .single e => .single e.small
  | .range low high => .range low.small high.small

def smallMembers : List Member → List Member
  | [] => []
  | m :: members => m.small :: smallMembers members

end

mutual

def Stmt.small : Stmt → Stmt
  | .compound body => .compound (smallStmts body)
  | .assign target value => .assign target.small value.small
  | .ifThen condition thenBranch => .ifThen condition.small thenBranch.small
  | .ifThenElse condition thenBranch elseBranch =>
    .ifThenElse condition.small thenBranch.small elseBranch.small
  | .whileDo condition body => .whileDo condition.small body.small
  | .forDo control initial direction final body =>
    .forDo (foldAscii control) initial.small direction final.small body.small
  | .call name arguments => .call (foldAscii name) (smallArguments arguments)

def smallStmts : List Stmt → List Stmt
  | [] => []
  | s :: ss => s.small :: smallStmts ss

end

def TypeDenoter.small : TypeDenoter → TypeDenoter
  | .array low high element => .array low.small high.small element.small
  | type => type

def VarDecl.small (v : VarDecl) : VarDecl := ⟨v.names.map foldAscii, v.type.small⟩

mutual

def ParameterSection.small : ParameterSection → ParameterSection
  | .value names type => .value (names.map foldAscii) type.small
  | .reference names type => .reference (names.map foldAscii) type.small
  | .function name parameters result =>
    .function (foldAscii name) (smallSections parameters) result.small

def smallSections : List ParameterSection → List ParameterSection
  | [] => []
  | p :: ps => p.small :: smallSections ps

end

def Heading.small (h : Heading) : Heading :=
  ⟨foldAscii h.name, smallSections h.parameters, h.result.small⟩

mutual

def Block.small : Block → Block
  | .mk functions declarations statements =>
    .mk (smallFunctions functions) (declarations.map VarDecl.small) (smallStmts statements)

def FunctionDecl.small : FunctionDecl → FunctionDecl
  | .definition heading block => .definition heading.small block.small
  | .directive heading d => .directive heading.small d
  | .body name block => .body (foldAscii name) block.small

def smallFunctions : List FunctionDecl → List FunctionDecl
  | [] => []
  | f :: fs => f.small :: smallFunctions fs

end

/-- A program with all its identifiers in small letters. -/
def Program.small (p : Program) : Program := ⟨foldAscii p.name, p.parameters.map foldAscii, p.block.small⟩

/-- The forms of an access that are told apart: names, elements, and all others. -/
theorem Access.byForm {P : Access → Prop} (name : ∀ id, P (.name id))
    (element : ∀ id i, P (.index (.name id) [i])) (unindexed : ∀ id, P (.index (.name id) []))
    (multiple : ∀ id i j es, P (.index (.name id) (i :: j :: es)))
    (nested : ∀ a es es', P (.index (.index a es) es')) (ofField : ∀ a id es, P (.index (.field a id) es))
    (ofDeref : ∀ a es, P (.index (.deref a) es)) (field : ∀ a id, P (.field a id))
    (deref : ∀ a, P (.deref a)) (a : Access) : P a := by
  cases a with
  | name id => exact name id
  | index base es =>
    cases base with
    | name id =>
      rcases es with _ | ⟨i, _ | ⟨j, es⟩⟩
      · exact unindexed id
      · exact element id i
      · exact multiple id i j es
    | index a es' => exact nested a es' es
    | field a id => exact ofField a id es
    | deref a => exact ofDeref a es
  | field a id => exact field a id
  | deref a => exact deref a

@[simp] theorem length_smallArguments (arguments : List Argument) :
    (smallArguments arguments).length = arguments.length := by
  induction arguments with
  | nil => rfl
  | cons a arguments ih => rw [smallArguments, List.length_cons, List.length_cons, ih]

theorem Argument.expr_small (a : Argument) : a.small.expr = a.expr.small := by
  cases a <;> rfl

/-- Constants have no names in them. -/
@[simp] theorem Expr.constant?_small (e : Expr) : e.small.constant? = e.constant? := by
  fun_induction Expr.constant? e with
  | case1 n => rfl
  | case2 e ih => rw [Expr.small, Expr.constant?, ih]
  | case3 e ih => rw [Expr.small, Expr.constant?, ih]
  | case4 e h₁ h₂ h₃ =>
    cases e with
    | constant k => cases k <;> first | rfl | exact absurd rfl (h₁ _)
    | signed s e => cases s <;> first | exact absurd rfl (h₂ _) | exact absurd rfl (h₃ _)
    | _ => rfl

@[simp] theorem DataType.ofScalar?_small (type : TypeDenoter) : ofScalar? type.small = ofScalar? type := by
  cases type <;> rfl

/-! ## code -/

def Line.small : Line → Line
  | .label name => .label (foldAscii name)
  | .op (.pusha target) => .op (.pusha (foldAscii target))
  | .op o => .op o

/-- Code with its labels, and the labels it pushes, in small letters. -/
def smallCode (code : List Line) : List Line := code.map Line.small

@[simp] theorem smallCode_append (a b : List Line) : smallCode (a ++ b) = smallCode a ++ smallCode b :=
  List.map_append

/-- Instructions that push no label stay as they are. -/
theorem smallCode_emit {ops : List (Op String)} (h : ∀ o ∈ ops, ∀ target, o ≠ .pusha target) :
    smallCode (emit ops) = emit ops := by
  unfold smallCode emit
  rw [List.map_map]
  refine List.map_congr_left fun o ho => ?_
  cases o with
  | pusha target => exact absurd rfl (h _ ho target)
  | _ => rfl

@[simp] theorem smallCode_emitBasic (bs : List Basic) : smallCode (emitBasic bs) = emitBasic bs := by
  refine smallCode_emit fun o ho target he => ?_
  obtain ⟨b, -, rfl⟩ := List.mem_map.mp ho
  cases he

@[simp] theorem smallCode_emitConversion (c : Option Conversion) :
    smallCode (emitConversion c) = emitConversion c := by
  cases c with
  | none => rfl
  | some c => cases c <;> rfl

@[simp] theorem smallCode_callCode (label : String) : smallCode (callCode label) = callCode (foldAscii label) := rfl

/-! ## scopes -/

def Table.map {α β : Type} (f : α → β) (t : Table α) : Table β :=
  ⟨t.entries.map (Prod.map id f)⟩

section
variable {α β : Type} (f : α → β) (t : Table α) (name : String)

@[simp] theorem Table.find?_map : (t.map f).find? name = (t.find? name).map f := by
  unfold Table.find? Table.map
  generalize t.entries = entries
  induction entries with
  | nil => rfl
  | cons entry entries ih =>
    obtain ⟨key, a⟩ := entry
    rw [List.map_cons, Prod.map_apply, List.lookup_cons, List.lookup_cons, ih, id_eq]
    cases foldName name == key <;> rfl

@[simp] theorem Table.find?_foldAscii : t.find? (foldAscii name) = t.find? name := by
  unfold Table.find?
  rw [foldName_foldAscii]

@[simp] theorem Table.contains_foldAscii : t.contains (foldAscii name) = t.contains name := by
  unfold Table.contains
  rw [Table.find?_foldAscii]

@[simp] theorem Table.contains_map : (t.map f).contains name = t.contains name := by
  unfold Table.contains
  rw [Table.find?_map, Option.isSome_map]

@[simp] theorem Table.insert_foldAscii (a : α) : t.insert (foldAscii name) a = t.insert name a := by
  unfold Table.insert
  rw [foldName_foldAscii]

@[simp] theorem Table.erase_foldAscii : t.erase (foldAscii name) = t.erase name := by
  unfold Table.erase
  rw [foldName_foldAscii]

@[simp] theorem Table.modify_foldAscii (g : α → α) : t.modify (foldAscii name) g = t.modify name g := by
  unfold Table.modify
  rw [foldName_foldAscii]

theorem Table.map_insert (a : α) : (t.insert name a).map f = (t.map f).insert name (f a) := rfl

theorem Table.map_erase : (t.erase name).map f = (t.map f).erase name := by
  unfold Table.map Table.erase
  rw [List.filter_map]
  rfl

theorem Table.map_modify {g : α → α} {h : β → β} (hg : ∀ a, f (g a) = h (f a)) :
    (t.modify name g).map f = (t.map f).modify name h := by
  unfold Table.map Table.modify
  rw [List.map_map, List.map_map]
  refine congrArg Table.mk (List.map_congr_left fun entry _ => ?_)
  obtain ⟨key, a⟩ := entry
  simp only [Function.comp_apply, Prod.map_apply, id_eq]
  split
  · rw [Prod.map_apply, id_eq, hg]
  · rfl

end

def Signature.small (f : Signature) : Signature := { f with label := foldAscii f.label }

def Scopes.small (s : Scopes) : Scopes :=
  { s with functions := s.functions.map Signature.small, current := s.current.map foldAscii }

def Activation.small (a : Activation) : Activation := { a with name := foldAscii a.name }

def Compiler.small (c : Compiler) : Compiler :=
  { c with scopes := c.scopes.small, activation := c.activation.map Activation.small,
           pending := c.pending.map Heading.small }

namespace Scopes
variable (s : Scopes) (name : String)

@[simp] theorem localTable_small : s.small.localTable = s.localTable := by
  unfold localTable small
  cases s.current <;> simp

@[simp] theorem currentTable_small : s.small.currentTable = s.currentTable := by
  unfold currentTable
  rw [localTable_small]
  unfold small
  cases s.current <;> rfl

@[simp] theorem resolve?_small : s.small.resolve? (foldAscii name) = s.resolve? name := by
  unfold resolve?
  rw [localTable_small, Table.find?_foldAscii, Table.find?_foldAscii]
  rfl

@[simp] theorem function?_small : s.small.function? (foldAscii name) = (s.function? name).map Signature.small := by
  unfold function? small
  rw [Table.find?_foldAscii, Table.find?_map]

end Scopes

end PascalStack
