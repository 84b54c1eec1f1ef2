/-
  Arguments — what a command line asks for.

  A command line is read from left to right.  A parameter is written as `--name value`, `--name=value`,
  `-n value`, `-nvalue` or `-n=value`, letters of flags may share a hyphen, and after `--` nothing is an
  option any more.  A value that starts with a hyphen must be attached to its option.

  A value is looked at only when the next option or value comes, or the end: until then it is pending.  This
  decides which of two faults is reported.

  1. **Arguments** — all that a command line can ask for, and what it means for the settings and the log.
  2. **Stops** — why a command line does not ask for a compile.
  3. **Shapes** — one argument by itself.
  4. **Values** — what was given so far, and how a value is taken in.
  5. **Reading** — one argument after the other.
-/
import StyleFold.Command.Options
import StyleFold.Event
import StyleFold.Settings
import StyleFold.Toml.Lexical

namespace StyleFold.Command

/-! ## Arguments -/

/-- The kinds of indentation that can be asked for. -/
inductive IndentStyle
  | none
  | spaces
  | tabs
  deriving DecidableEq, Inhabited

/-- What a command line asks for. -/
structure Arguments where
  input : String
  output : Option String := none
  config : Option String := none
  color : Bool := false
  indent : Option IndentStyle := none
  /-- Spaces per level, should spaces be asked for. -/
  indentWidth : Nat := 4
  noVerify : Bool := false
  /-- How often a more verbose log was asked for. -/
  verbosity : Nat := 0
  deriving DecidableEq

namespace Arguments

/-- The indentation asked for, if any. -/
def indent? (a : Arguments) : Option Indent :=
  a.indent.map fun
    | .none => .none
    | .spaces => .spaces a.indentWidth
    | .tabs => .tabs

/-- Settings with what the command line asks for in their place. -/
def apply (a : Arguments) (s : Settings) : Settings :=
  { s with
    verify := s.verify && !a.noVerify
    layout := { color := s.layout.color || a.color, indent := a.indent?.getD s.layout.indent } }

/-- The least severe events to log. -/
def threshold (a : Arguments) : Level :=
  match a.verbosity with
  | 0 => .info
  | 1 => .debug
  | _ => .trace

end Arguments

/-! ## Stops -/

/-- What can be wrong with a command line. -/
inductive UsageFault
  /-- No stylesheet is named. -/
  | missingInput
  /-- There is no such option, or no room for another value. -/
  | unknown (argument : Text)
  /-- A parameter has no value. -/
  | missingValue (p : Parameter)
  /-- The value is none of those that the parameter can have. -/
  | badValue (p : Parameter) (value : Text)
  /-- The value is not a number, or too large. -/
  | badNumber (p : Parameter) (value : Text)
  /-- The option was given before. -/
  | repeated (option : String)
  /-- The flag has a value. -/
  | unwantedValue (f : Flag) (value : Text)
  deriving DecidableEq, Inhabited

/-- The fault in words. -/
def UsageFault.message : UsageFault → String
  | missingInput => "a stylesheet must be named"
  | unknown argument =>
    let shown := String.ofList argument
    s!"unexpected argument '{shown}'"
  | missingValue p => s!"a value is required for '{p.shown}'"
  | badValue p value | badNumber p value =>
    let shown := String.ofList value
    s!"invalid value '{shown}' for '{p.shown}'"
  | repeated option => s!"'{option}' cannot be used more than once"
  | unwantedValue f value =>
    let shown := String.ofList value
    s!"unexpected value '{shown}' for '{f.shown}'"

/-- Why a command line does not ask for a compile. -/
inductive Stop
  | help
  | version
  | usage (fault : UsageFault)
  deriving DecidableEq, Inhabited

/-- A step in the reading of a command line. -/
abbrev Step := Except Stop

/-- A command line that is at fault. -/
def refuse {α : Type} (fault : UsageFault) : Step α := .error (.usage fault)

/-! ## Shapes -/

/-- What an argument looks like. -/
inductive Shape
  /-- Two hyphens alone. -/
  | separator
  /-- A long name, and a value if there is an equals sign. -/
  | long (name : Text) (value : Option Text)
  /-- At least one letter. -/
  | letters (first : Char) (rest : Text)
  /-- Anything else, a lone hyphen too. -/
  | plain
  deriving DecidableEq

/-- The name in front of the first equals sign and the value behind it. -/
def nameAndValue (t : Text) : Text × Option Text :=
  match t.dropWhile (· != '=') with
  | [] => (t, none)
  | _ :: value => (t.takeWhile (· != '='), some value)

/-- The shape of an argument. -/
def Shape.of : Text → Shape
  | ['-', '-'] => separator
  | '-' :: '-' :: t => long (nameAndValue t).1 (nameAndValue t).2
  | '-' :: c :: t => letters c t
  | _ => plain

/-! ## Values -/

/-- What was given so far. -/
structure Given where
  input : Option String := none
  output : Option String := none
  config : Option String := none
  indent : Option IndentStyle := none
  indentWidth : Option Nat := none
  color : Bool := false
  noVerify : Bool := false
  verbosity : Nat := 0

/-- A name of a file, which is never empty. -/
def path (p : Parameter) (value : Text) : Step String :=
  if value.isEmpty then refuse (.badValue p value) else .ok (String.ofList value)

/-- A kind of indentation. -/
def indentStyle (p : Parameter) (value : Text) : Step IndentStyle :=
  if value = "none".toList then .ok .none
  else if value = "spaces".toList then .ok .spaces
  else if value = "tabs".toList then .ok .tabs
  else refuse (.badValue p value)

/-- A number below 2^64 in decimal digits, a plus sign before it allowed. -/
def number (p : Parameter) (value : Text) : Step Nat :=
  let body := if value.head? = some '+' then value.tail else value
  let digits := body.filterMap (Toml.digitIn? 10)
  let n := Toml.ofDigits 10 digits
  if body ≠ [] ∧ digits.length = body.length ∧ n < Nat.pow 2 64 then .ok n else refuse (.badNumber p value)

/-- A value in a place that must be free. -/
def once {α : Type} (p : Parameter) (place : Option α) (value : Step α) : Step (Option α) :=
  if place.isSome then refuse (.repeated p.shown) else value.map some

/-- A flag that must not be up. -/
def raised (f : Flag) (up : Bool) : Step Bool :=
  if up then refuse (.repeated f.shown) else .ok true

namespace Given

/-- The value of a parameter taken in. -/
def take (g : Given) (p : Parameter) (value : Text) : Step Given :=
  match p with
  | .input => do return { g with input := ← once p g.input (path p value) }
  | .output => do return { g with output := ← once p g.output (path p value) }
  | .config => do return { g with config := ← once p g.config (path p value) }
  | .indent => do return { g with indent := ← once p g.indent (indentStyle p value) }
  | .indentWidth => do return { g with indentWidth := ← once p g.indentWidth (number p value) }

/-- A flag taken in. -/
def raise (g : Given) (f : Flag) : Step Given :=
  match f with
  | .color => do return { g with color := ← raised f g.color }
  | .noVerify => do return { g with noVerify := ← raised f g.noVerify }
  | .verbose => .ok { g with verbosity := min (g.verbosity + 1) 255 }
  | .help => .error .help
  | .version => .error .version

/-- All that was given, once the command line is at its end. -/
def toArguments (g : Given) : Step Arguments :=
  match g.input with
  | none => refuse .missingInput
  | some input =>
    .ok { input, output := g.output, config := g.config, color := g.color, indent := g.indent,
          indentWidth := g.indentWidth.getD 4, noVerify := g.noVerify, verbosity := g.verbosity }

end Given

/-! ## Reading -/

/-- A parameter that was named last, with its value once that is known. -/
structure Pending where
  parameter : Parameter
  value : Option Text

/-- The state of the reading. -/
structure Reading where
  given : Given := {}
  pending : Option Pending := none
  /-- Whether options are over. -/
  trailing : Bool := false

namespace Reading

/-- The parameter that waits for its value. -/
def awaiting? (r : Reading) : Option Parameter :=
  match r.pending with
  | some ⟨p, none⟩ => some p
  | some ⟨_, some _⟩ | none => none

/-- Whether the stylesheet was named. -/
def hasInput (r : Reading) : Bool :=
  r.given.input.isSome || r.pending.any (fun pending => pending.parameter = .input)

/-- What is pending taken in. -/
def settle (r : Reading) : Step Reading :=
  match r.pending with
  | none => .ok r
  | some ⟨p, none⟩ => refuse (.missingValue p)
  | some ⟨p, some value⟩ => do return { r with given := ← r.given.take p value, pending := none }

/-- A flag. -/
def raise (r : Reading) (f : Flag) : Step Reading := do
  let r ← r.settle
  return { r with given := ← r.given.raise f }

/-- A parameter with its value attached, or one whose value is to follow. -/
def supply (r : Reading) (p : Parameter) (value : Option Text) : Step Reading := do
  let r ← r.settle
  match value with
  | some value => return { r with given := ← r.given.take p value }
  | none => return { r with pending := some ⟨p, none⟩ }

/-- A value without an option: it names the stylesheet. -/
def position (r : Reading) (argument : Text) : Step Reading := do
  if r.hasInput then
    refuse (.unknown argument)
  else
    return { ← r.settle with pending := some ⟨.input, some argument⟩ }

/-- A long name. -/
def long (r : Reading) (argument name : Text) (value : Option Text) : Step Reading :=
  match Switch.ofName? name, value with
  | none, _ => refuse (.unknown argument)
  | some (.flag f), some value => refuse (.unwantedValue f value)
  | some (.flag f), none => r.raise f
  | some (.parameter p), value => r.supply p value

/-- The value that follows a letter in the same argument, without an equals sign in front. -/
def attached : Text → Option Text
  | [] => none
  | '=' :: value => some value
  | value => some value

/-- Letters that share a hyphen, up to the first that takes a value. -/
def letters (r : Reading) (argument : Text) : Text → Step Reading
  | [] => .ok r
  | c :: rest =>
    match Switch.ofLetter? c with
    | none => refuse (.unknown argument)
    | some (.flag f) => do (← r.raise f).letters argument rest
    | some (.parameter p) => r.supply p (attached rest)

/-- A value, of the parameter that waits for one or without any. -/
def value (r : Reading) (argument : Text) : Step Reading :=
  match r.awaiting? with
  | some p => .ok { r with pending := some ⟨p, some argument⟩ }
  | none => r.position argument

/-- One argument. -/
def read (r : Reading) (argument : Text) : Step Reading :=
  if r.trailing then
    r.position argument
  else
    match Shape.of argument with
    | .separator => .ok { r with trailing := true }
    | .long name value => r.long argument name value
    | .letters c rest => r.letters argument (c :: rest)
    | .plain => r.value argument

end Reading

/-- What the arguments ask for. -/
def Arguments.parse (arguments : List String) : Step Arguments := do
  let r ← arguments.foldlM (fun r argument => Reading.read r argument.toList) {}
  (← r.settle).given.toArguments

/-! ## Sanity checks -/

example : Shape.of "--a=b=c".toList = .long ['a'] (some "b=c".toList) := by decide
example : Shape.of ['-'] = .plain ∧ Shape.of "-vo".toList = .letters 'v' ['o'] := by decide
example : (Arguments.parse ["-vo", "x", "--", "-a"]).toOption =
    some { input := "-a", output := some "x", verbosity := 1 } := by decide +kernel
example : (Arguments.parse ["a", "-o", "", "-x"]).toOption = none := by decide +kernel

end StyleFold.Command
