import PenMachine.Terminal.Script

/-!
# Scripts in a folder

A folder of files held in memory, in which a script can be run without touching a disk. A path is
walked name by name from the left, and the first name that cannot be followed decides the failure.
The last name is looked up when a file is read, and may be new when one is written.

Of the folders around this one nothing is known but that they are there: no name is found in them,
and what is written to them is out of sight.
-/

namespace PenMachine.Terminal

/-- Files by name. -/
structure Folder where
  files : List (String × ByteArray)

namespace Folder

/-- Where a walk along a path has come to. -/
inductive Place where
  | inside
  | outside
  | file (content : ByteArray)

/-- The most bytes that a name may have. -/
def nameLimit : Nat := 255

/-- The most bytes that a path may have. -/
def pathLimit : Nat := 4095

/-- The names along a path. Slashes in a row count as one. -/
def names (path : String) : List String := (path.splitOn "/").filter (· != "")

/-- Whether a path can only mean a folder. -/
def endsInSlash (path : String) : Bool := path.toList.getLast? == some '/'

/-- Where a path starts: a leading slash leads out of the folder. -/
def start (path : String) : Place := if path.toList.head? == some '/' then .outside else .inside

/-- Follows a name from a place. Only a folder can be left by a name, even by one that stays. -/
def follow (folder : Folder) (place : Place) (name : String) : Except FileFailure Place :=
  match place with
  | .file _ => .error .notDirectory
  | .inside | .outside =>
    if name = "." then .ok place
    else if name = ".." then .ok .outside
    else if nameLimit < name.utf8ByteSize then .error .nameTooLong
    else match place, folder.files.lookup name with
      | .inside, some content => .ok (.file content)
      | _, _ => .error .notFound

/-- Follows names from where a path starts. -/
def walk (folder : Folder) (path : String) (names : List String) : Except FileFailure Place :=
  if pathLimit < path.utf8ByteSize then .error .nameTooLong
  else names.foldlM folder.follow (start path)

def read (folder : Folder) (path : String) : Except FileFailure String := do
  match ← folder.walk path (names path) with
  | .file content =>
    if endsInSlash path then .error .notDirectory
    else match String.fromUTF8? content with
      | some text => .ok text
      | none => .error .notText
  | _ => .error .isDirectory

/-- The folder with a file added, or replaced if there is one of that name. -/
def insert (folder : Folder) (name : String) (content : ByteArray) : Folder :=
  ⟨(name, content) :: folder.files.filter (·.1 != name)⟩

/-- The folder after a text has been written to the file at a path. -/
def write (folder : Folder) (path text : String) : Except FileFailure Folder := do
  let parent ← folder.walk path (names path).dropLast
  match parent, (names path).getLast? with
  | .file _, _ => .error .notDirectory
  | _, none => .error .isDirectory
  | place, some name =>
    if name = "." ∨ name = ".." ∨ endsInSlash path then .error .isDirectory
    else if nameLimit < name.utf8ByteSize then .error .nameTooLong
    else match place with
      | .inside => .ok (folder.insert name text.toUTF8)
      | _ => .ok folder

/-- Saves the drawing that a report asks to save. -/
def save (folder : Folder) (report : Report) : Report × Folder :=
  match report.save with
  | none => (report, folder)
  | some (path, text) =>
    match folder.write path text with
    | .ok folder => (report, folder)
    | .error failure => (report.saveFailed failure, folder)

def run (folder : Folder) (options : Options) (seed : UInt64) (path : String) : Report × Folder :=
  folder.save (runScript options seed path (folder.read path))

end Folder

end PenMachine.Terminal
