/-
  Main — the command on a machine.

  Files are files of the disk, the result goes to the standard output and the log to the standard error.
-/
import StyleFold.Command.Run

namespace StyleFold.Command

/-- A fault of the operating system as a fault of a file. -/
def faultOfError : IO.Error → FileFault
  | .noFileOrDirectory .. => .missing
  | .inappropriateType .. => .directory
  | e => .other (toString e)

/-- Access to the files of the disk. -/
def disk : FileAccess IO where
  read path := do
    try return .ok (← IO.FS.readBinFile path)
    catch e => return .error (faultOfError e)
  write path bytes := do
    try return .ok (← IO.FS.writeBinFile path bytes)
    catch e => return .error (faultOfError e)

/-- A log on the standard error. -/
def showLog (events : List Event) : IO Unit :=
  events.forM fun e => IO.eprintln s!"{e.level.name} {e.message}"

end StyleFold.Command

open StyleFold StyleFold.Command

/-- Compiles the stylesheet that the command line names. -/
def main (arguments : List String) : IO UInt32 := do
  match Arguments.parse arguments with
  | .error .help => do
    IO.print helpText
    return 0
  | .error .version => do
    IO.print versionText
    return 0
  | .error (.usage fault) => do
    IO.eprintln s!"error: {fault.message}"
    return 2
  | .ok a => do
    let outcome ← run disk a
    IO.print (String.ofList outcome.output)
    showLog (outcome.log a.threshold)
    return outcome.exitCode.toUInt32
