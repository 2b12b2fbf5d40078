import PascalStack.Machine.Value

/-!
# Files and paths

* `FileError`     why a file cannot be read or written;
* `Path`          the steps of a path from the root or from the working folder;
* `Disk`          folders and files by their places;
* `Disk.target`   where a path leads;
* `Disk.read`     the text of the file at a path;
* `Disk.write`    the disk after writing a file.
-/

namespace PascalStack.CommandLine

inductive FileError where
  | missing
  | notFolder
  | isFolder
  | nameTooLong
  | notText
  | other (text : String)
deriving DecidableEq, Repr

def FileError.message : FileError → String
  | missing => "No such file or directory (os error 2)"
  | notFolder => "Not a directory (os error 20)"
  | isFolder => "Is a directory (os error 21)"
  | nameTooLong => "File name too long (os error 36)"
  | notText => notUtf8
  | other text => text

/-- Bytes as a text. -/
def decodeText (bytes : List UInt8) : Except FileError String :=
  match String.fromUTF8? bytes.toByteArray with
  | some text => .ok text
  | none => .error .notText

/-- The greatest number of bytes of a name. -/
def maxName : Nat := 255

/-- Paths have fewer bytes than this. -/
def pathLimit : Nat := 4096

/-- A path as the names between its slashes.  `slash` says that it ends in one. -/
structure Path where
  absolute : Bool
  steps : List String
  slash : Bool
deriving DecidableEq, Repr

/-- The names between slashes; a name may be empty. -/
def splitSlashes (cs : List Char) : List (List Char) :=
  cs.foldr (fun c names =>
    if c = '/' then [] :: names
    else
      match names with
      | [] => [[c]]
      | n :: ns => (c :: n) :: ns) [[]]

/-- Several slashes count as one. -/
def Path.ofString (path : String) : Path :=
  let names := splitSlashes path.toList
  ⟨path.toList.head? = some '/', (names.filter fun n => !n.isEmpty).map String.ofList,
    path.toList.getLast? = some '/'⟩

/-- What is at a place.  The void gives nothing and takes everything. -/
inductive Item where
  | folder
  | file (bytes : List UInt8)
  | void
deriving DecidableEq

/-- A place is named by the folders on the way to it from the root. -/
abbrev Place := List String

/-- The items of a disk except for the root, and the working folder. -/
structure Disk where
  items : List (Place × Item)
  here : Place

namespace Disk

/-- Folders under the root that every disk has. -/
def standardFolders : List String :=
  ["bin", "dev", "etc", "home", "lib", "opt", "proc", "sys", "tmp", "usr", "var"]

/-- The working folder of a disk made from files. -/
def workingFolder : Place := ["tmp", "work"]

/-- A disk whose working folder holds the given files. -/
def ofFiles (files : List (String × List UInt8)) : Disk where
  items := standardFolders.map (fun name => ([name], Item.folder))
    ++ [(["dev", "null"], .void), (workingFolder, .folder)]
    ++ files.map fun (name, bytes) => (workingFolder ++ [name], .file bytes)
  here := workingFolder

/-- The files in the working folder. -/
def files (d : Disk) : List (String × List UInt8) :=
  d.items.filterMap fun (place, item) =>
    match item with
    | .file bytes =>
      if place.dropLast = d.here then place.getLast?.map fun name => (name, bytes) else none
    | _ => none

def item? (d : Disk) (place : Place) : Option Item :=
  if place.isEmpty then some .folder else d.items.lookup place

/-- One step of a path, into a folder.  Above the root there is the root. -/
def enter (d : Disk) (place : Place) (step : String) : Except FileError Place :=
  if step = "." then .ok place
  else if step = ".." then .ok place.dropLast
  else if maxName < step.utf8ByteSize then .error .nameTooLong
  else
    match d.item? (place ++ [step]) with
    | some .folder => .ok (place ++ [step])
    | some _ => .error .notFolder
    | none => .error .missing

/-- All steps of a path, each into a folder. -/
def walk (d : Disk) (place : Place) : List String → Except FileError Place
  | [] => .ok place
  | step :: steps =>
    match d.enter place step with
    | .ok next => d.walk next steps
    | .error e => .error e

/-- The folder and the name that a path leads to.  There is no name if the path is a way from folder to
folder, such as `..` or `/`. -/
def target (d : Disk) (path : String) : Except FileError (Place × Option String) := do
  if path.isEmpty then throw .missing
  if pathLimit ≤ path.utf8ByteSize then throw .nameTooLong
  let p := Path.ofString path
  let place ← d.walk (if p.absolute then [] else d.here) p.steps.dropLast
  match p.steps.getLast? with
  | none => return (place, none)
  | some name =>
    if name = "." ∨ name = ".." then return (place, none) else return (place, some name)

/-- The bytes of a file; a slash after its name asks for a folder. -/
def readBytes (d : Disk) (path : String) : Except FileError (List UInt8) := do
  match ← d.target path with
  | (_, none) => throw .isFolder
  | (place, some name) =>
    if maxName < name.utf8ByteSize then throw .nameTooLong
    match d.item? (place ++ [name]) with
    | none => throw .missing
    | some .folder => throw .isFolder
    | some (.file bytes) => if (Path.ofString path).slash then throw .notFolder else return bytes
    | some .void => if (Path.ofString path).slash then throw .notFolder else return []

/-- The text of a file. -/
def read (d : Disk) (path : String) : Except FileError String := do
  decodeText (← d.readBytes path)

/-- Writes a file, in place of an earlier one; a path that ends in a slash is a folder, whether there is
one or not. -/
def write (d : Disk) (path text : String) : Except FileError Disk := do
  match ← d.target path with
  | (_, none) => throw .isFolder
  | (place, some name) =>
    if (Path.ofString path).slash then throw .isFolder
    if maxName < name.utf8ByteSize then throw .nameTooLong
    let place := place ++ [name]
    match d.item? place with
    | some .folder => throw .isFolder
    | some .void => return d
    | _ =>
      let others := d.items.filter fun i => i.1 ≠ place
      return { d with items := others ++ [(place, .file text.toUTF8.toList)] }

end Disk

end PascalStack.CommandLine
