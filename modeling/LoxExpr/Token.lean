import LoxExpr.Number
set_option autoImplicit false

namespace LoxExpr

inductive Symbol where
  | leftParen | rightParen | leftBrace | rightBrace | comma | dot | minus | plus | semicolon
  | slash | star | bang | bangEqual | equal | equalEqual | greater | greaterEqual | less
  | lessEqual
  deriving DecidableEq, Repr

namespace Symbol

def all : List Symbol :=
  [leftParen, rightParen, leftBrace, rightBrace, comma, dot, minus, plus, semicolon, slash, star,
    bang, bangEqual, equal, equalEqual, greater, greaterEqual, less, lessEqual]

def text : Symbol → String
  | leftParen => "("
  | rightParen => ")"
  | leftBrace => "\x7b"
  | rightBrace => "\x7d"
  | comma => ","
  | dot => "."
  | minus => "-"
  | plus => "+"
  | semicolon => ";"
  | slash => "/"
  | star => "*"
  | bang => "!"
  | bangEqual => "!="
  | equal => "="
  | equalEqual => "=="
  | greater => ">"
  | greaterEqual => ">="
  | less => "<"
  | lessEqual => "<="

def name : Symbol → String
  | leftParen => "LEFT_PAREN"
  | rightParen => "RIGHT_PAREN"
  | leftBrace => "LEFT_BRACE"
  | rightBrace => "RIGHT_BRACE"
  | comma => "COMMA"
  | dot => "DOT"
  | minus => "MINUS"
  | plus => "PLUS"
  | semicolon => "SEMICOLON"
  | slash => "SLASH"
  | star => "STAR"
  | bang => "BANG"
  | bangEqual => "BANG_EQUAL"
  | equal => "EQUAL"
  | equalEqual => "EQUAL_EQUAL"
  | greater => "GREATER"
  | greaterEqual => "GREATER_EQUAL"
  | less => "LESS"
  | lessEqual => "LESS_EQUAL"

def ofChar? : Char → Option Symbol
  | '(' => some leftParen
  | ')' => some rightParen
  | '{' => some leftBrace
  | '}' => some rightBrace
  | ',' => some comma
  | '.' => some dot
  | '-' => some minus
  | '+' => some plus
  | ';' => some semicolon
  | '/' => some slash
  | '*' => some star
  | '!' => some bang
  | '=' => some equal
  | '>' => some greater
  | '<' => some less
  | _ => none

/-- The symbol that the same spelling followed by an equals sign is. -/
def withEqual? : Symbol → Option Symbol
  | bang => some bangEqual
  | equal => some equalEqual
  | greater => some greaterEqual
  | less => some lessEqual
  | _ => none

theorem text_withEqual {s t : Symbol} (h : s.withEqual? = some t) : t.text = s.text ++ "=" := by
  cases s <;> simp [withEqual?] at h <;> subst h <;> decide

end Symbol

inductive Keyword where
  | «and» | «class» | «else» | «false» | «fun» | «for» | «if» | «nil» | «or» | «print» | «return»
  | «super» | «this» | «true» | «var» | «while»
  deriving DecidableEq, Repr

namespace Keyword

def all : List Keyword :=
  [.«and», .«class», .«else», .«false», .«fun», .«for», .«if», .«nil», .«or», .«print», .«return»,
    .«super», .«this», .«true», .«var», .«while»]

def text : Keyword → String
  | .«and» => "and"
  | .«class» => "class"
  | .«else» => "else"
  | .«false» => "false"
  | .«fun» => "fun"
  | .«for» => "for"
  | .«if» => "if"
  | .«nil» => "nil"
  | .«or» => "or"
  | .«print» => "print"
  | .«return» => "return"
  | .«super» => "super"
  | .«this» => "this"
  | .«true» => "true"
  | .«var» => "var"
  | .«while» => "while"

def name : Keyword → String
  | .«and» => "AND"
  | .«class» => "CLASS"
  | .«else» => "ELSE"
  | .«false» => "FALSE"
  | .«fun» => "FUN"
  | .«for» => "FOR"
  | .«if» => "IF"
  | .«nil» => "NIL"
  | .«or» => "OR"
  | .«print» => "PRINT"
  | .«return» => "RETURN"
  | .«super» => "SUPER"
  | .«this» => "THIS"
  | .«true» => "TRUE"
  | .«var» => "VAR"
  | .«while» => "WHILE"

def ofText? (text : String) : Option Keyword := all.find? (·.text == text)

theorem ofText?_text (k : Keyword) : ofText? k.text = some k := by cases k <;> decide

theorem text_of_ofText? {text : String} {k : Keyword} (h : ofText? text = some k) :
    k.text = text := by simpa using List.find?_some h

end Keyword

inductive Kind where
  | symbol (s : Symbol)
  | identifier
  | string
  | number
  | keyword (k : Keyword)
  | eof
  deriving DecidableEq, Repr

namespace Kind

def all : List Kind :=
  Symbol.all.map symbol ++ [identifier, string, number] ++ Keyword.all.map keyword ++ [eof]

def name : Kind → String
  | symbol s => s.name
  | identifier => "IDENTIFIER"
  | string => "STRING"
  | number => "NUMBER"
  | keyword k => k.name
  | eof => "EOF"

def ofName? (name : String) : Option Kind := all.find? (·.name == name)

end Kind

inductive Literal where
  | number (value : Binary64)
  | str (text : String)
  | bool (value : Bool)
  | nil
  deriving DecidableEq, Repr

namespace Literal

def text : Literal → String
  | number x => x.text
  | str s => s
  | bool true => "true"
  | bool false => "false"
  | nil => "nil"

def equal : Literal → Literal → Bool
  | number x, number y => x.equal y
  | str s, str t => s == t
  | bool a, bool b => a == b
  | nil, nil => true
  | _, _ => false

def isNaN : Literal → Bool
  | number x => x.isNaN
  | _ => false

end Literal

/-- Nothing ties the four fields together, since tokens may also come from a caller. The line is the
one on which the last character stands, counted from one. -/
structure Token where
  kind : Kind
  lexeme : String
  literal : Option Literal
  line : Nat
  deriving DecidableEq, Repr

namespace Token

def eof (line : Nat) : Token := ⟨.eof, "", none, line⟩

def isEof (t : Token) : Bool := t.kind == .eof

def text (t : Token) : String :=
  t.kind.name ++ " " ++ t.lexeme ++ match t.literal with
    | some v => " " ++ v.text
    | none => ""

/-- Compares values as numbers and everything else field by field. -/
def equal (s t : Token) : Bool :=
  s.kind == t.kind && s.lexeme == t.lexeme && s.line == t.line && match s.literal, t.literal with
    | some v, some w => v.equal w
    | none, none => true
    | _, _ => false

end Token

end LoxExpr
