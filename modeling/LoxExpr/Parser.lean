import LoxExpr.Diagnostic
import LoxExpr.Grammar
set_option autoImplicit false

/-!
A cursor over a token list that always ends with an end of the text. Reading, recovering and asking
for the end all work on the tokens ahead of the cursor, and the cursor is all that one call leaves
to the next.
-/

namespace LoxExpr

def Kind.startsStatement : Kind → Bool
  | .keyword .«class» | .keyword .«fun» | .keyword .«var» | .keyword .«for» => true
  | .keyword .«if» | .keyword .«while» | .keyword .«print» | .keyword .«return» => true
  | _ => false

/-- Drops tokens up to a statement boundary, which is the end of the text, a keyword that begins a
statement, or the place right after a semicolon; `previous` is the token before the list. -/
def toBoundary (previous : Token) : List Token → List Token
  | [] => []
  | t :: ts =>
    if t.isEof || previous.kind == .symbol .semicolon || t.kind.startsStatement then t :: ts
    else toBoundary t ts

def recover : List Token → List Token
  | [] => []
  | t :: ts => if t.isEof then t :: ts else toBoundary t ts

structure Parser where
  tokens : List Token
  position : Nat
  deriving DecidableEq, Repr

namespace Parser

/-- Adds an end of the text on the line of the last token, unless there is one already. -/
def closed (ts : List Token) : List Token :=
  match ts.getLast? with
  | none => [.eof 1]
  | some t => if t.isEof then ts else ts ++ [.eof t.line]

def ofTokens (ts : List Token) : Parser := ⟨closed ts, 0⟩

def ahead (p : Parser) : List Token := p.tokens.drop p.position

def moveTo (p : Parser) (rest : List Token) : Parser :=
  { p with position := p.tokens.length - rest.length }

theorem ahead_moveTo {p : Parser} {rest : List Token} (h : rest <:+ p.ahead) :
    (p.moveTo rest).ahead = rest := by
  obtain ⟨front, whole⟩ := h.trans (List.drop_suffix p.position p.tokens)
  have cut : p.tokens.length - rest.length = front.length := by simp [← whole]
  rw [ahead, moveTo, cut, ← whole, List.drop_left]

def isAtEnd (p : Parser) : Bool := (current p.ahead).isEof

/-- Reads one expression; after an error the cursor stays where reading stopped. -/
def parseExpression (p : Parser) : Except SyntaxError Expr × Parser :=
  let outcome := (Rule.expression maxNesting).run p.ahead
  (outcome.result, p.moveTo outcome.rest)

def parse (p : Parser) (ds : Diagnostics) : Option Expr × Parser × Diagnostics :=
  match p.parseExpression with
  | (.ok e, q) => (some e, q, ds)
  | (.error e, q) => (none, q, ds.report e.diagnostic)

def synchronize (p : Parser) : Parser := p.moveTo (recover p.ahead)

end Parser

end LoxExpr
