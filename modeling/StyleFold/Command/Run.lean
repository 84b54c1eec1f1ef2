/-
  Run — a run of the command.

  The settings come from the settings file, if one is named, and give way to what the command line asks for.
  The stylesheet is compiled and the result goes to the output file or to the standard output.

  1. **Outcomes** — the exit code, the standard output and the events of a run, and the log made of them.
  2. **Reports** — how an error and a success are reported.
  3. **Runs** — the run itself, for any access to files.
-/
import StyleFold.Command.Arguments
import StyleFold.Decimal.Fixed
import StyleFold.Files.Load
import StyleFold.Text.Lines
import StyleFold.Text.Visible

namespace StyleFold

/-! ## Outcomes -/

/-- What a run leaves behind, files apart. -/
structure Outcome where
  exitCode : Nat
  output : Text := []
  events : List Event

namespace Outcome

/-- A run that failed after it reported `before`. -/
def failed (before after : List Event) : Outcome := { exitCode := 1, events := before ++ after }

/-- The log of a run, safe to show: names of files and parts of the stylesheet stand in it. -/
def log (threshold : Level) (o : Outcome) : List Event :=
  (Event.shownAt threshold o.events).map fun e =>
    { e with message := String.ofList (Text.visible e.message.toList) }

end Outcome

/-! ## Reports -/

namespace CompileError

/-- The error and what caused it, outermost first. -/
def chain : CompileError → List String
  | e@(unreadable _ reason) => [e.message, reason]
  | e => [e.message]

/-- How the error is reported: a failed scan shows the text around the place, any other error its causes. -/
def report (context : List String) (e : CompileError) : List Event :=
  match e.failure? with
  | some failure =>
    ⟨.error, s!"{failure.fault.reason}:"⟩ :: failure.excerpt.lines.map fun line =>
      let shown := String.ofList line
      ⟨.error, s!"  {shown}"⟩
  | none => [⟨.error, ": ".intercalate (context ++ e.chain)⟩]

end CompileError

/-- How a success is reported. -/
def Compilation.report (c : Compilation) : List Event :=
  let sizes := c.sizeReport
  let saved := Decimal.fixed 1 sizes.savedPercent
  [⟨.info, s!"Uncompressed size: {sizes.original}"⟩,
   ⟨.info, s!"Compressed size: {sizes.compressed}"⟩,
   ⟨.info, s!"Total compressed: -{saved}%"⟩,
   ⟨.info, s!"Total merged: {c.totals.merged}"⟩] ++
    if c.isConsistent then [] else [⟨.warn, s!"{c.violations.length} integrity violations found"⟩]

/-! ## Runs -/

namespace Command

variable {m : Type → Type} [Monad m]

/-- The settings that a run starts from. -/
def baseSettings (files : FileAccess m) (a : Arguments) : m (Reported Settings) :=
  match a.config with
  | some path => files.loadSettings path
  | none => pure { result := .ok {} }

/-- The result of a run put where it belongs. -/
def deliver (files : FileAccess m) (a : Arguments) (before : List Event) (c : Compilation) : m Outcome := do
  match a.output with
  | none => return { exitCode := 0, output := c.output, events := before ++ c.report }
  | some path =>
    match ← files.writeText path c.output with
    | .ok () => return { exitCode := 0, events := before ++ c.report }
    | .error fault => return .failed before [⟨.error, s!"Failed to write '{path}': {fault.message}"⟩]

/-- A run of the command. -/
def run (files : FileAccess m) (a : Arguments) : m Outcome := do
  let base ← baseSettings files a
  match base.result with
  | .error e => return .failed base.events (e.report [])
  | .ok settings =>
    let compiled ← files.compileFile (a.apply settings) a.input
    let before := base.events ++ compiled.events
    match compiled.result with
    | .error e => return .failed before (e.report [s!"Failed to compile '{a.input}'"])
    | .ok c => deliver files a before c

end Command

end StyleFold
