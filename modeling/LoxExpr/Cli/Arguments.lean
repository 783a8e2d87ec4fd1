set_option autoImplicit false

namespace LoxExpr.Cli

namespace Plain

/-- How far a sequence has come; `ground` is outside all sequences. -/
inductive Form where
  | ground
  | escape
  | escapeIntermediate
  | control
  | command
  | device
  | deviceParameter
  | deviceIntermediate
  | string
  deriving DecidableEq, Repr

/-! The classes of ASCII characters that sequences are made of. -/

def isControl (c : Char) : Bool := c.val < 0x20 || c.val == 0x7f

def isSpace (c : Char) : Bool := c == '\t' || c == '\n' || c == '\x0c' || c == '\r'

def isIntermediate (c : Char) : Bool := 0x20 ≤ c.val && c.val < 0x30

def isParameter (c : Char) : Bool := 0x30 ≤ c.val && c.val < 0x40

def isPrivate (c : Char) : Bool := 0x3c ≤ c.val && c.val < 0x40

def isFinal (c : Char) : Bool := 0x40 ≤ c.val && c.val < 0x7f

def isCancel (c : Char) : Bool := c == '\x18' || c == '\x1a'

/-- The string terminator is a byte, and so ends a string also as a part of a longer character. -/
def isTerminator (c : Char) : Bool := (String.utf8EncodeChar c).contains 0x9c

namespace Form

def shows : Form → Char → Bool
  | ground, c => isSpace c || !isControl c
  | escape, c | escapeIntermediate, c | control, c => isSpace c
  | _, _ => false

/-- The form after a character that is not text and neither starts nor breaks off a sequence. -/
def next : Form → Char → Form
  | ground, _ => ground
  | escape, c =>
    if c == '[' then control
    else if c == ']' then command
    else if c == 'P' then device
    else if c == 'X' || c == '^' || c == '_' then string
    else if isIntermediate c then escapeIntermediate
    else if isParameter c || isFinal c then ground
    else escape
  | escapeIntermediate, c => if isParameter c || isFinal c then ground else escapeIntermediate
  | control, c => if isFinal c then ground else control
  | command, c => if c == '\x07' then ground else command
  | device, c =>
    if isFinal c then string
    else if isParameter c then deviceParameter
    else if isIntermediate c then deviceIntermediate
    else device
  | deviceParameter, c =>
    if isFinal c || isPrivate c then string
    else if isIntermediate c then deviceIntermediate
    else deviceParameter
  | deviceIntermediate, c => if isFinal c || isParameter c then string else deviceIntermediate
  | string, c => if isTerminator c then ground else string

end Form

/-- The text in the characters after a sequence has come to the form; `shown` tells whether the
character before them was text. A character beyond ASCII, once it is text, ends the sequence. -/
def chars (form : Form) (shown : Bool) : List Char → List Char
  | [] => []
  | c :: cs =>
    if c == '\x1b' then chars .escape false cs
    else if isCancel c then chars .ground false cs
    else if form.shows c || (shown && Form.ground.shows c) then
      c :: chars (if c.val < 0x80 then form else .ground) true cs
    else chars (form.next c) false cs

/-- What a stream that is no terminal gets of a text: no control sequences, and of the control
characters only white space. -/
def text (s : String) : String := String.ofList (chars .ground false s.toList)

end Plain

inductive Switch where
  | tokens
  | noColor
  | help
  | version
  deriving DecidableEq, Repr

namespace Switch

def all : List Switch := [tokens, noColor, help, version]

def name : Switch → String
  | tokens => "tokens"
  | noColor => "no-color"
  | help => "help"
  | version => "version"

def ofName? (name : String) : Option Switch := all.find? (·.name == name)

def ofLetter? : Char → Option Switch
  | 'h' => some help
  | 'V' => some version
  | _ => none

def text (s : Switch) : String := "--" ++ s.name

end Switch

inductive UsageError where
  | unexpectedArgument (argument : String)
  | unexpectedValue (value : String) (switch : Switch)
  | repeated (switch : Switch)
  | emptyScript
  deriving DecidableEq, Repr

/-- What an argument holds is quoted as plain text, and by itself: a control sequence that is left
open in it ends with it. -/
def UsageError.message : UsageError → String
  | unexpectedArgument a => "error: unexpected argument '" ++ Plain.text a ++ "' found"
  | unexpectedValue v s =>
      "error: unexpected value '" ++ Plain.text v ++ "' for '" ++ s.text ++
        "' found; no more were expected"
  | repeated s => "error: the argument '" ++ s.text ++ "' cannot be used multiple times"
  | emptyScript => "error: a value is required for '[SCRIPT]' but none was supplied"

inductive Stop where
  | help
  | version
  | usage (e : UsageError)
  deriving DecidableEq, Repr

structure Arguments where
  script : Option String
  tokens : Bool
  noColor : Bool
  deriving DecidableEq, Repr

namespace Arguments

def initial : Arguments := ⟨none, false, false⟩

def place (a : Arguments) (script : String) : Except Stop Arguments :=
  match a.script with
  | none => .ok { a with script := some script }
  | some _ => .error (.usage (.unexpectedArgument script))

/-- An empty script name that was placed before is refused here. -/
def settle (a : Arguments) : Except Stop Arguments :=
  if a.script = some "" then .error (.usage .emptyScript) else .ok a

def apply (a : Arguments) : Switch → Except Stop Arguments
  | .tokens =>
      if a.tokens then .error (.usage (.repeated .tokens)) else .ok { a with tokens := true }
  | .noColor =>
      if a.noColor then .error (.usage (.repeated .noColor)) else .ok { a with noColor := true }
  | .help => .error .help
  | .version => .error .version

def accept (a : Arguments) (s : Switch) : Except Stop Arguments := a.settle.bind (apply · s)

def long (a : Arguments) (cs : List Char) : Except Stop Arguments :=
  let name := String.ofList (cs.takeWhile (· != '='))
  match Switch.ofName? name, cs.dropWhile (· != '=') with
  | none, _ => .error (.usage (.unexpectedArgument ("--" ++ name)))
  | some s, [] => a.accept s
  | some s, _ :: value => .error (.usage (.unexpectedValue (String.ofList value) s))

def letter (a : Arguments) (c : Char) : Except Stop Arguments :=
  match Switch.ofLetter? c with
  | none => .error (.usage (.unexpectedArgument (String.ofList ['-', c])))
  | some s => a.accept s

def take (a : Arguments) (argument : String) : Except Stop Arguments :=
  match argument.toList with
  | '-' :: '-' :: cs => a.long cs
  | '-' :: c :: cs => (c :: cs).foldlM letter a
  | _ => a.place argument

def readFrom (a : Arguments) : List String → Except Stop Arguments
  | [] => a.settle
  | argument :: rest =>
    if argument = "--" then (rest.foldlM place a).bind settle
    else (a.take argument).bind (readFrom · rest)

def read (arguments : List String) : Except Stop Arguments := initial.readFrom arguments

end Arguments

end LoxExpr.Cli
