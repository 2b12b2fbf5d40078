import PascalStack.Typing.Error

/-!
# Names in scope

* `Table`      names, without regard to case, and what they stand for;
* `Variable`   where a variable lives and how its slots are read;
* `Signature`  what is known of a function;
* `Scopes`     the global table, the tables of functions, and the next free slot.
-/

namespace PascalStack

/-- Names in small letters with their entries, the latest first. -/
structure Table (α : Type) where
  entries : List (String × α)
deriving Repr

namespace Table
variable {α : Type}

def empty : Table α := ⟨[]⟩

def find? (t : Table α) (name : String) : Option α := t.entries.lookup (foldName name)

def contains (t : Table α) (name : String) : Bool := (t.find? name).isSome

/-- Adds an entry; it hides an earlier one of the same name. -/
def insert (t : Table α) (name : String) (a : α) : Table α :=
  ⟨(foldName name, a) :: t.entries⟩

/-- Changes the entries of a name. -/
def modify (t : Table α) (name : String) (f : α → α) : Table α :=
  ⟨t.entries.map fun (key, a) => if key = foldName name then (key, f a) else (key, a)⟩

/-- Removes the entries of a name. -/
def erase (t : Table α) (name : String) : Table α :=
  ⟨t.entries.filter fun (key, _) => key ≠ foldName name⟩

def values (t : Table α) : List α := t.entries.map Prod.snd

def size (t : Table α) : Nat := t.entries.length

end Table

/-- How the slots of a variable are read: as one value, or as elements counted from `low`. -/
inductive Shape where
  | scalar (type : DataType)
  | array (low : Int64) (element : DataType)
deriving DecidableEq

/-- A variable and its first slot. -/
structure Variable where
  slot : Nat
  shape : Shape
deriving DecidableEq

namespace Variable

def type (v : Variable) : DataType :=
  match v.shape with
  | .scalar t => t
  | .array _ _ => .array

/-- The type of the elements of an array; integer if it is not known. -/
def element (v : Variable) : DataType :=
  match v.shape with
  | .scalar _ => .integer
  | .array _ t => t

/-- The index of the first element; 0 if it is not known. -/
def low (v : Variable) : Int64 :=
  match v.shape with
  | .scalar _ => 0
  | .array n _ => n

end Variable

/-- A function; `label` is its name as it was first declared. -/
structure Signature where
  label : String
  parameters : List DataType
  result : DataType
  directive : Option Directive
  hasBody : Bool
  called : Bool
deriving DecidableEq, Repr

/-- All names in scope.  `current` is the function whose declarations are being read. -/
structure Scopes where
  globals : Table Variable
  locals : Table (Table Variable)
  functions : Table Signature
  current : Option String
  nextSlot : Nat

namespace Scopes

def empty : Scopes := ⟨.empty, .empty, .empty, none, 0⟩

/-- Reserves `size` slots: the first of them, and the scopes after it.  Slots are counted in a machine
word. -/
def allocate (s : Scopes) (size : Nat) : Nat × Scopes :=
  (s.nextSlot, { s with nextSlot := (s.nextSlot + size) % wordSize })

/-- Enters a function; its table is kept if it has one. -/
def enter (s : Scopes) (function : String) : Scopes :=
  let locals := if s.locals.contains function then s.locals else s.locals.insert function .empty
  { s with locals, current := some function }

def leave (s : Scopes) : Scopes := { s with current := none }

/-- The variables of the current function. -/
def localTable (s : Scopes) : Table Variable :=
  (s.current.bind s.locals.find?).getD .empty

/-- The table in which declarations are made. -/
def currentTable (s : Scopes) : Table Variable :=
  match s.current with
  | some _ => s.localTable
  | none => s.globals

/-- Declares a variable in the current function, or globally outside of functions.  The name must be
new there, and no function may have it. -/
def declare (s : Scopes) (name : String) (v : Variable) : Except SemanticError Scopes :=
  if s.functions.contains name || s.currentTable.contains name then .error (.duplicate name)
  else
    match s.current with
    | some function =>
      .ok { s with locals := s.locals.modify function fun t => t.insert name v }
    | none => .ok { s with globals := s.globals.insert name v }

/-- A variable of the current function, or else a global one. -/
def resolve? (s : Scopes) (name : String) : Option Variable :=
  match s.localTable.find? name with
  | some v => some v
  | none => s.globals.find? name

def localsOf? (s : Scopes) (function : String) : Option (Table Variable) :=
  s.locals.find? function

def function? (s : Scopes) (name : String) : Option Signature := s.functions.find? name

/-- Changes what is known of a function. -/
def modifyFunction (s : Scopes) (name : String) (f : Signature → Signature) : Scopes :=
  { s with functions := s.functions.modify name f }

/-- Declares a function; no function and no global variable may have its name. -/
def declareFunction (s : Scopes) (f : Signature) : Except SemanticError Scopes :=
  if s.functions.contains f.label || s.globals.contains f.label then .error (.duplicate f.label)
  else .ok { s with functions := s.functions.insert f.label f }

/-- Puts a signature before the first one whose label does not come before its own. -/
def insertByLabel (f : Signature) : List Signature → List Signature
  | [] => [f]
  | g :: gs => if g.label < f.label then g :: insertByLabel f gs else f :: g :: gs

/-- All functions, in the order of their labels. -/
def functionList (s : Scopes) : List Signature := s.functions.values.foldr insertByLabel []

/-- A variable that is indexed. -/
def indexed (s : Scopes) (name : String) : Except SemanticError Variable :=
  match s.resolve? name with
  | some v => .ok v
  | none => .error (.undeclared .variable name)

end Scopes

end PascalStack
