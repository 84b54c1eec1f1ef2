/-
  Access — how a run reaches files.

  The library reads and writes whole files by name and never asks where they are: a run is written for any
  `FileAccess`.  On a machine the access is to the disk; for reasoning, and where files are given as data,
  it is to a `Directory`.

  1. **Faults** — why a file cannot be read or written, with the words of the operating system.
  2. **Access** — reading and writing in some monad.
  3. **Text** — the contents of a text file.
-/
import StyleFold.Text.Basic

namespace StyleFold

/-! ## Faults -/

/-- Why a file cannot be read or written. -/
inductive FileFault
  /-- Nothing is there, or the directory it should be in is missing. -/
  | missing
  /-- What is there is a directory. -/
  | directory
  /-- The path leads through a file as if it were a directory. -/
  | notDirectory
  /-- The file holds no UTF-8 text. -/
  | notText
  /-- Anything else, in the words of the operating system. -/
  | other (reason : String)
  deriving DecidableEq, Inhabited

/-- The fault in the words of the operating system. -/
def FileFault.message : FileFault → String
  | missing => "No such file or directory (os error 2)"
  | directory => "Is a directory (os error 21)"
  | notDirectory => "Not a directory (os error 20)"
  | notText => "stream did not contain valid UTF-8"
  | other reason => reason

/-! ## Access -/

/-- Reading and writing of whole files in the monad `m`. -/
structure FileAccess (m : Type → Type) where
  read : String → m (Except FileFault ByteArray)
  write : String → ByteArray → m (Except FileFault Unit)

/-! ## Text -/

/-- The characters that the bytes of a file encode; a byte order mark is a character like any other. -/
def textOfBytes (bytes : ByteArray) : Except FileFault Text :=
  match String.fromUTF8? bytes with
  | some s => .ok s.toList
  | none => .error .notText

/-- The bytes that encode a text. -/
def bytesOfText (t : Text) : ByteArray := (String.ofList t).toUTF8

/-- What is written can be read again. -/
theorem textOfBytes_bytesOfText (t : Text) : textOfBytes (bytesOfText t) = .ok t := by
  have h : String.fromUTF8? (String.ofList t).toUTF8 = some (String.ofList t) := by
    rw [String.fromUTF8?, String.toUTF8_eq_toByteArray, dif_pos (String.ofList t).isValidUTF8]
    rfl
  rw [textOfBytes, bytesOfText, h]
  exact congrArg Except.ok (String.toList_ofList)

namespace FileAccess

variable {m : Type → Type} [Monad m]

/-- The text in a file. -/
def readText (files : FileAccess m) (path : String) : m (Except FileFault Text) := do
  return (← files.read path).bind textOfBytes

/-- A file with the given text, in place of what was there. -/
def writeText (files : FileAccess m) (path : String) (t : Text) : m (Except FileFault Unit) :=
  files.write path (bytesOfText t)

end FileAccess

end StyleFold
