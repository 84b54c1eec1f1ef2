/-
  Load — settings and stylesheets from files.

  A file is read as text first; only then is its text looked at.  What was reported on the way comes with
  the result, also where there is none.
-/
import StyleFold.Compile
import StyleFold.CompileError
import StyleFold.Files.Access
import StyleFold.SettingsFile

namespace StyleFold

/-- The result of a run with what it reported, in order. -/
structure Reported (α : Type) where
  result : Except CompileError α
  events : List Event := []

/-- The settings in a text that came from `path`. -/
def Settings.ofText (path : String) (t : Text) : Reported Settings :=
  match Settings.ofToml t with
  | .ok settings => ⟨.ok settings, [⟨.debug, s!"Loaded configuration from {path}"⟩]⟩
  | .error fault => ⟨.error (.invalidSettings path fault.message), []⟩

/-- The compilation of a text. -/
def compileText (settings : Settings) (t : Text) : Reported Compilation :=
  let result := compile settings t
  ⟨result.mapError .scan, compileEvents t result⟩

namespace FileAccess

variable {m : Type → Type} [Monad m]

/-- What `use` makes of the text in a file. -/
def load {α : Type} (files : FileAccess m) (path : String) (use : Text → Reported α) : m (Reported α) := do
  match ← files.readText path with
  | .ok t => return use t
  | .error fault => return ⟨.error (.unreadable path fault.message), []⟩

/-- The settings in a file. -/
def loadSettings (files : FileAccess m) (path : String) : m (Reported Settings) :=
  files.load path (Settings.ofText path)

/-- The compilation of the stylesheet in a file. -/
def compileFile (files : FileAccess m) (settings : Settings) (path : String) : m (Reported Compilation) :=
  files.load path (compileText settings)

end FileAccess

end StyleFold
