import LoxExpr.Token
set_option autoImplicit false

namespace LoxExpr

namespace LexError

/-- The reasons the scanner has, and the words of a caller who reports an error of their own. -/
inductive Reason where
  | unexpectedCharacter
  | unterminatedString
  | invalidNumber (numeral : String)
  | other (message : String)
  deriving DecidableEq, Repr

def Reason.message : Reason → String
  | unexpectedCharacter => "Unexpected character."
  | unterminatedString => "Unterminated string."
  | invalidNumber numeral => "Invalid number literal '" ++ numeral ++ "'."
  | other message => message

end LexError

structure LexError where
  reason : LexError.Reason
  line : Nat
  deriving DecidableEq, Repr

def LexError.text (e : LexError) : String :=
  "Lexical error at line " ++ toString e.line ++ ": " ++ e.reason.message

namespace SyntaxError

inductive Reason where
  | expectExpression
  | expectRightParen
  | expectLiteralValue
  | tooMuchNesting
  | other (message : String)
  deriving DecidableEq, Repr

def Reason.message : Reason → String
  | expectExpression => "Expect expression."
  | expectRightParen => "Expect ')' after expression."
  | expectLiteralValue => "Expect literal value."
  | tooMuchNesting => "Too much nesting."
  | other message => message

end SyntaxError

/-- The token is the one that could not be used, or a number or a string that was used and has no
value. -/
structure SyntaxError where
  reason : SyntaxError.Reason
  token : Token
  deriving DecidableEq, Repr

def SyntaxError.text (e : SyntaxError) : String :=
  let place := if e.token.isEof then "end" else "'" ++ e.token.lexeme ++ "'"
  "Parse error at line " ++ toString e.token.line ++ ", at " ++ place ++ ": " ++ e.reason.message

inductive Site where
  | line
  | atEnd
  | atLexeme (lexeme : String)
  deriving DecidableEq, Repr

def Site.text : Site → String
  | line => ""
  | atEnd => " at end"
  | atLexeme lexeme => " at '" ++ lexeme ++ "'"

structure Diagnostic where
  line : Nat
  site : Site
  message : String
  deriving DecidableEq, Repr

def Diagnostic.text (d : Diagnostic) : String :=
  "[line " ++ toString d.line ++ "] Error" ++ d.site.text ++ ": " ++ d.message

def LexError.diagnostic (e : LexError) : Diagnostic := ⟨e.line, .line, e.reason.message⟩

def SyntaxError.diagnostic (e : SyntaxError) : Diagnostic where
  line := e.token.line
  site := if e.token.isEof then .atEnd else .atLexeme e.token.lexeme
  message := e.reason.message

structure Diagnostics where
  items : List Diagnostic
  deriving DecidableEq, Repr

namespace Diagnostics

def empty : Diagnostics := ⟨[]⟩

def reportAll (ds : Diagnostics) (reports : List Diagnostic) : Diagnostics := ⟨ds.items ++ reports⟩

def report (ds : Diagnostics) (d : Diagnostic) : Diagnostics := ds.reportAll [d]

def size (ds : Diagnostics) : Nat := ds.items.length

def isEmpty (ds : Diagnostics) : Bool := ds.items.isEmpty

def last? (ds : Diagnostics) : Option Diagnostic := ds.items.getLast?

end Diagnostics

end LoxExpr
