/-
  Directory — a directory of files held as data.

  A file has a place, the names on the way to it.  Directories are not kept: one exists where a file lies
  below it, and the outermost always.

  1. **Places** — what a directory holds at a place.
  2. **Paths** — the place that a path names.  Empty names and single dots stay where they are, double dots
     go back, and whatever another name follows must be a directory.  Nothing outside can be reached.
  3. **Reading and writing** — the access to a directory that is the state of a computation.
-/
import StyleFold.Files.Access
import StyleFold.Text.Lines

namespace StyleFold

/-- The names that lead to a file or a directory, outermost first. -/
abbrev Place := List Text

/-- Files by place, each place once. -/
structure Directory where
  files : List (Place × ByteArray) := []

namespace Directory

/-! ## Places -/

/-- What can be found at a place. -/
inductive Entry
  | file (bytes : ByteArray)
  | directory

/-- What the directory holds at a place. -/
def find? (d : Directory) (place : Place) : Option Entry :=
  match d.files.lookup place with
  | some bytes => some (.file bytes)
  | none =>
    if place.isEmpty || d.files.any (fun f => place.isPrefixOf f.1) then some .directory else none

/-- The directory with a file at a place, in place of what was there. -/
def put (d : Directory) (place : Place) (bytes : ByteArray) : Directory :=
  ⟨d.files.filter (fun f => f.1 != place) ++ [(place, bytes)]⟩

/-- What was put at a place is found there. -/
theorem find?_put (d : Directory) (place : Place) (bytes : ByteArray) :
    (d.put place bytes).find? place = some (.file bytes) := by
  have gone : (d.files.filter fun f => f.1 != place).lookup place = none := by
    rw [List.lookup_eq_none_iff]
    intro f hf
    have other := (List.mem_filter.mp hf).2
    simp only [bne_iff_ne] at other
    simpa using fun h => other h.symm
  simp [find?, put, List.lookup_append, gone]

/-! ## Paths -/

/-- One name further from a place that is a directory. -/
def enter (place : Place) (name : Text) : Except FileFault Place :=
  if name = [] ∨ name = ['.'] then .ok place
  else if name = ['.', '.'] then
    if place.isEmpty then .error .missing else .ok place.dropLast
  else .ok (place ++ [name])

/-- Nothing wrong with a place that is to be entered: it is a directory. -/
def checkDirectory (d : Directory) (place : Place) : Except FileFault Unit :=
  match d.find? place with
  | some .directory => .ok ()
  | some (.file _) => .error .notDirectory
  | none => .error .missing

/-- The place where the names lead, starting from a place. -/
def follow (d : Directory) (place : Place) : List Text → Except FileFault Place
  | [] => .ok place
  | name :: rest => do
    d.checkDirectory place
    d.follow (← enter place name) rest

/-- The place that a path names. -/
def place? (d : Directory) (path : String) : Except FileFault Place :=
  match path.toList with
  | [] | '/' :: _ => .error .missing
  | t => d.follow [] (Text.cutAt '/' t)

/-! ## Reading and writing -/

/-- The bytes of the file that a path names. -/
def read (d : Directory) (path : String) : Except FileFault ByteArray := do
  match d.find? (← d.place? path) with
  | some (.file bytes) => .ok bytes
  | some .directory => .error .directory
  | none => .error .missing

/-- The place where a file is to be written.  What ends in a slash can only be a directory. -/
def target? (d : Directory) (path : String) : Except FileFault Place := do
  let t := path.toList
  let bare := (t.reverse.dropWhile (· == '/')).reverse
  if bare = t then
    d.place? path
  else
    let _ ← d.place? (String.ofList bare)
    .error .directory

/-- The directory after a file was written; the directory around the file must be there. -/
def write (d : Directory) (path : String) (bytes : ByteArray) : Except FileFault Directory := do
  let place ← d.target? path
  match d.find? place with
  | some .directory => .error .directory
  | some (.file _) | none => .ok (d.put place bytes)

/-- Access to a directory that is the state of a computation. -/
def access : FileAccess (StateM Directory) where
  read path := do return (← get).read path
  write path bytes := do
    match (← get).write path bytes with
    | .ok d => do
      set d
      return .ok ()
    | .error fault => return .error fault

/-- The directory with the given files, each under its path. -/
def ofFiles (files : List (String × ByteArray)) : Directory :=
  files.foldl (fun d f => d.put (Text.cutAt '/' f.1.toList) f.2) {}

/-- The files of `after` that are new or have other contents than in `before`, each with its path. -/
def changes (before after : Directory) : List (String × ByteArray) :=
  (after.files.filter fun f => before.files.lookup f.1 != some f.2).map fun f =>
    (String.ofList (Text.join '/' f.1), f.2)

end Directory

end StyleFold
