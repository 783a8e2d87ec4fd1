import LoxExpr.Cli.Arguments
import LoxExpr.Cli.Directory
import LoxExpr.Expr.Parenthesized
import LoxExpr.Parsed
set_option autoImplicit false

/-!
The program: what it writes and how it ends, as a function of its arguments, its files, its input
and one setting of its environment. With a script it reports on the script and ends with whether
there was a diagnostic; without one it reports on each line of the input by itself.
-/

namespace LoxExpr.Cli

inductive Color where
  | darkGrey
  | red
  deriving DecidableEq, Repr

def Color.index : Color → Nat
  | darkGrey => 8
  | red => 9

structure Style where
  colored : Bool
  deriving DecidableEq, Repr

namespace Style

def before (s : Style) (c : Color) : String :=
  if s.colored then "\x1b[38;5;" ++ toString c.index ++ "m" else "\x1b[m"

def after (s : Style) : String := if s.colored then "\x1b[39m" else "\x1b[m"

/-- A text without color still stands between two sequences, which leave the color alone. -/
def paint (s : Style) (c : Color) (text : String) : String := s.before c ++ text ++ s.after

end Style

/-- Text for standard output and for standard error; their order in time is not kept. -/
structure Report where
  out : String
  err : String
  deriving DecidableEq, Repr

namespace Report

def empty : Report := ⟨"", ""⟩

def append (a b : Report) : Report := ⟨a.out ++ b.out, a.err ++ b.err⟩

instance : Append Report := ⟨append⟩

theorem append_out (a b : Report) : (a ++ b).out = a.out ++ b.out := rfl

theorem append_err (a b : Report) : (a ++ b).err = a.err ++ b.err := rfl

end Report

structure Settings where
  tokens : Bool
  style : Style
  deriving DecidableEq, Repr

def lines (xs : List String) : String := String.join (xs.map (· ++ "\n"))

def Settings.report (s : Settings) (source : String) : Report × Diagnostics :=
  let (tokens, scanned) := Diagnostics.empty.scan source
  let (expr, _, ds) := (Parser.ofTokens tokens).parse scanned
  let listing := if s.tokens then tokens.map Token.text else []
  let tree := match expr with
    | some e => if ds.isEmpty then [e.parenthesized] else []
    | none => []
  (⟨lines (listing ++ tree), lines (ds.items.map fun d => s.style.paint .red d.text)⟩, ds)

inductive Exit where
  | success
  | usage
  | data
  | unreadable
  deriving DecidableEq, Repr

def Exit.code : Exit → Nat
  | success => 0
  | usage => 64
  | data => 65
  | unreadable => 74

structure Output where
  exit : Exit
  report : Report
  deriving DecidableEq, Repr

def Output.after (o : Output) (r : Report) : Output := { o with report := r ++ o.report }

def helpText : String := lines [
  "Scanner and recursive-descent expression parser for the Lox scripting language",
  "",
  "Usage: rlox [OPTIONS] [SCRIPT]",
  "",
  "Arguments:",
  "  [SCRIPT]  Script to read; starts an interactive prompt when omitted",
  "",
  "Options:",
  "      --tokens    Print the scanned tokens before the tree",
  "      --no-color  Never color diagnostics",
  "  -h, --help      Print help",
  "  -V, --version   Print version"]

def versionText : String := lines ["rlox 0.1.0"]

def Stop.output : Stop → Output
  | .help => ⟨.success, ⟨helpText, ""⟩⟩
  | .version => ⟨.success, ⟨versionText, ""⟩⟩
  | .usage e => ⟨.usage, ⟨"", lines [e.message]⟩⟩

def decodeText? (bytes : List UInt8) : Option String := String.fromUTF8? ⟨bytes.toArray⟩

namespace Settings

def runScript (s : Settings) (source : String) : Output :=
  let (report, ds) := s.report source
  ⟨if ds.isEmpty then .success else .data, report⟩

def unreadableScript (path : String) (e : ReadError) : Output :=
  ⟨.unreadable, ⟨"", lines ["Error: could not read '" ++ path ++ "': " ++ e.message]⟩⟩

def script (s : Settings) (path : String) : Except ReadError (List UInt8) → Output
  | .error e => unreadableScript path e
  | .ok bytes => match decodeText? bytes with
    | none => unreadableScript path .invalidText
    | some source => s.runScript source

def promptText (s : Settings) : Report := ⟨s.style.paint .darkGrey "> ", ""⟩

/-- What a line of input comes to: a report after which the next line is read, or the end. -/
def line (s : Settings) (bytes : List UInt8) : Report ⊕ Output :=
  match decodeText? bytes with
  | none => .inr ⟨.unreadable,
      ⟨"", lines ["Error: could not read input: " ++ ReadError.invalidText.message]⟩⟩
  | some source =>
    if source.toList.all (fun c => c == '\n' || c == '\r') then .inr ⟨.success, .empty⟩
    else .inl (s.report source).1

def prompt (s : Settings) : List (List UInt8) → Output
  | [] => ⟨.success, s.promptText⟩
  | bytes :: rest => match s.line bytes with
    | .inr last => last.after s.promptText
    | .inl report => (s.prompt rest).after (s.promptText ++ report)

end Settings

def cutLines : List UInt8 → List (List UInt8)
  | [] => []
  | b :: bs =>
    if b = 10 then [b] :: cutLines bs
    else match cutLines bs with
      | [] => [[b]]
      | l :: ls => (b :: l) :: ls

structure World where
  arguments : List String
  directory : Directory
  input : List UInt8
  noColor : Option String
  deriving DecidableEq, Repr

def Arguments.settings (a : Arguments) (noColor : Option String) : Settings where
  tokens := a.tokens
  style := ⟨!a.noColor && noColor.getD "" == ""⟩

def run (w : World) : Output :=
  match Arguments.read w.arguments with
  | .error stop => stop.output
  | .ok a =>
    let settings := a.settings w.noColor
    match a.script with
    | some path => settings.script path (w.directory.read path)
    | none => settings.prompt (cutLines w.input)

end LoxExpr.Cli
