/-
  Options — what can be written on the command line.

  1. **Parameters and flags** — a parameter has a value, a flag stands alone.
  2. **Spellings** — every option has a long name and some have a letter; names are never shortened.
  3. **Help** — the text that explains them.
-/
import StyleFold.Text.Basic

namespace StyleFold.Command

/-! ## Parameters and flags -/

/-- What takes a value. -/
inductive Parameter
  /-- The stylesheet to compile, which has no option in front. -/
  | input
  /-- Where to write the result. -/
  | output
  /-- The settings file. -/
  | config
  /-- The kind of indentation. -/
  | indent
  /-- The number of spaces per level. -/
  | indentWidth
  deriving DecidableEq, Inhabited

/-- What stands alone. -/
inductive Flag
  | color
  | noVerify
  /-- May be repeated, for a more verbose log. -/
  | verbose
  | help
  | version
  deriving DecidableEq, Inhabited

/-- An option of the command line. -/
inductive Switch
  | parameter (p : Parameter)
  | flag (f : Flag)
  deriving DecidableEq, Inhabited

/-! ## Spellings -/

/-- The long names, written after two hyphens. -/
def longNames : List (Text × Switch) :=
  [("output".toList, .parameter .output), ("config".toList, .parameter .config),
   ("indent".toList, .parameter .indent), ("indent-width".toList, .parameter .indentWidth),
   ("color".toList, .flag .color), ("no-verify".toList, .flag .noVerify),
   ("verbose".toList, .flag .verbose), ("help".toList, .flag .help), ("version".toList, .flag .version)]

/-- The letters, written after one hyphen. -/
def shortNames : List (Char × Switch) :=
  [('o', .parameter .output), ('c', .parameter .config), ('v', .flag .verbose), ('h', .flag .help),
   ('V', .flag .version)]

/-- The option with a long name. -/
def Switch.ofName? (name : Text) : Option Switch := longNames.lookup name

/-- The option with a letter. -/
def Switch.ofLetter? (letter : Char) : Option Switch := shortNames.lookup letter

/-- How the parameter is shown to the user. -/
def Parameter.shown : Parameter → String
  | input => "<INPUT>"
  | output => "--output <OUTPUT>"
  | config => "--config <CONFIG>"
  | indent => "--indent <INDENT>"
  | indentWidth => "--indent-width <INDENT_WIDTH>"

/-- How the flag is shown to the user. -/
def Flag.shown : Flag → String
  | color => "--color"
  | noVerify => "--no-verify"
  | verbose => "--verbose"
  | help => "--help"
  | version => "--version"

/-! ## Help -/

/-- What the command says about itself. -/
def helpText : String :=
  "Compress a stylesheet by merging duplicate rules\n\n" ++
  "Usage: stylefold [OPTIONS] <INPUT>\n\n" ++
  "Arguments:\n" ++
  "  <INPUT>  Stylesheet to compile\n\n" ++
  "Options:\n" ++
  "  -o, --output <OUTPUT>              Write the result here instead of stdout\n" ++
  "  -c, --config <CONFIG>              TOML configuration file\n" ++
  "      --color                        Color output by nesting depth\n" ++
  "      --indent <INDENT>              Indentation style [possible values: none, spaces, tabs]\n" ++
  "      --indent-width <INDENT_WIDTH>  Spaces per level with spaces [default: 4]\n" ++
  "      --no-verify                    Skip the integrity check\n" ++
  "  -v, --verbose...                   Increase log verbosity (-v debug, -vv trace)\n" ++
  "  -h, --help                         Print help\n" ++
  "  -V, --version                      Print version\n"

/-- The name and version of the command. -/
def versionText : String := "stylefold 1.0.0\n"

end StyleFold.Command
