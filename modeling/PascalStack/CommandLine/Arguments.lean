/-!
# Words of a command line

* `Action`      what an option does to the settings;
* `Switch`      an option with its names;
* `Word`        how a word of the command line reads: a plain word, a long option or short ones;
* `Reader`      the options of a tool and what it does with plain words;
* `Reader.read` the settings that a list of words asks for.
-/

namespace PascalStack.CommandLine

/-- Why a tool does not run. -/
inductive Refusal where
  | usage
  | version
  | help
deriving DecidableEq, Repr

section
variable {S : Type}

/-- A change of the settings by a value; `none` if the value is no good or came twice. -/
abbrev Setter (S : Type) := S → String → Option S

inductive Action (S : Type) where
  | flag (apply : S → S)
  | value (set : Setter S)
  | refuse (r : Refusal)

/-- An option, `--long` or `-short`. -/
structure Switch (S : Type) where
  long : String
  short : Option Char
  action : Action S

/-- How a word reads while options are allowed. -/
inductive Word where
  | plain
  | separator
  | long (name : String) (value : Option String)
  | short (letters : List Char)
deriving DecidableEq

/-- A single dash is a plain word. -/
def Word.ofString (word : String) : Word :=
  match word.toList with
  | ['-', '-'] => .separator
  | '-' :: '-' :: rest =>
    let name := rest.takeWhile (· != '=')
    match rest.dropWhile (· != '=') with
    | [] => .long (String.ofList name) none
    | _ :: value => .long (String.ofList name) (some (String.ofList value))
  | '-' :: c :: cs => .short (c :: cs)
  | _ => .plain

/-- The options of a tool, and what a plain word stands for. -/
structure Reader (S : Type) where
  switches : List (Switch S)
  plain : Setter S

/-- The settings so far.  `pending` is an option that waits for its value; after a separator all words
are plain. -/
structure Progress (S : Type) where
  settings : S
  pending : Option (Setter S)
  separated : Bool

namespace Progress

/-- Goes on with the settings that a value gives. -/
def set (p : Progress S) (set : Setter S) (value : String) : Except Refusal (Progress S) :=
  match set p.settings value with
  | some settings => .ok { p with settings, pending := none }
  | none => .error .usage

end Progress

namespace Reader

def findLong? (r : Reader S) (name : String) : Option (Action S) :=
  (r.switches.find? fun s => s.long = name).map Switch.action

def findShort? (r : Reader S) (c : Char) : Option (Action S) :=
  (r.switches.find? fun s => s.short = some c).map Switch.action

/-- A long option; only options with a value may have one after an equals sign. -/
def readLong (r : Reader S) (p : Progress S) (name : String) (value : Option String) :
    Except Refusal (Progress S) :=
  match r.findLong? name, value with
  | some (.flag apply), none => .ok { p with settings := apply p.settings }
  | some (.refuse refusal), none => .error refusal
  | some (.value set), some v => p.set set v
  | some (.value set), none => .ok { p with pending := some set }
  | _, _ => .error .usage

/-- The value that stands behind a short option in the same word. -/
def attached : List Char → String
  | '=' :: cs => String.ofList cs
  | cs => String.ofList cs

/-- Short options in one word.  The rest of the word is the value of the first one that takes a
value. -/
def readShort (r : Reader S) (p : Progress S) : List Char → Except Refusal (Progress S)
  | [] => .ok p
  | c :: cs =>
    match r.findShort? c with
    | some (.flag apply) => r.readShort { p with settings := apply p.settings } cs
    | some (.refuse refusal) => .error refusal
    | some (.value set) =>
      if cs.isEmpty then .ok { p with pending := some set } else p.set set (attached cs)
    | none => .error .usage

/-- Reads one word. -/
def readWord (r : Reader S) (p : Progress S) (word : String) : Except Refusal (Progress S) :=
  if p.separated then p.set r.plain word
  else
    match p.pending, Word.ofString word with
    | some set, .plain => p.set set word
    | some _, _ => .error .usage
    | none, .plain => p.set r.plain word
    | none, .separator => .ok { p with separated := true }
    | none, .long name value => r.readLong p name value
    | none, .short letters => r.readShort p letters

/-- Reads all words in order. -/
def readWords (r : Reader S) (p : Progress S) : List String → Except Refusal S
  | [] => if p.pending.isSome then .error .usage else .ok p.settings
  | w :: ws =>
    match r.readWord p w with
    | .ok p => r.readWords p ws
    | .error refusal => .error refusal

/-- The settings that a list of words asks for. -/
def read (r : Reader S) (settings : S) (words : List String) : Except Refusal S :=
  r.readWords ⟨settings, none, false⟩ words

end Reader

end

end PascalStack.CommandLine
