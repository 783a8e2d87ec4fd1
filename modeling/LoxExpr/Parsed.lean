import LoxExpr.Parser
import LoxExpr.Scan
set_option autoImplicit false

namespace LoxExpr

def Diagnostics.scan (ds : Diagnostics) (source : String) : List Token × Diagnostics :=
  let scan := Scan.ofText source
  (scan.tokens, ds.reportAll (scan.errors.map LexError.diagnostic))

/-- Lexical errors do not keep a text from being parsed, and are reported before a syntax error. -/
def Diagnostics.parse (ds : Diagnostics) (source : String) : Option Expr × Diagnostics :=
  let (tokens, scanned) := ds.scan source
  let (expr, _, parsed) := (Parser.ofTokens tokens).parse scanned
  (expr, parsed)

structure Parsed where
  expr : Option Expr
  diagnostics : Diagnostics
  deriving DecidableEq, Repr

namespace Parsed

def ofText (source : String) : Parsed :=
  let (expr, diagnostics) := Diagnostics.empty.parse source
  ⟨expr, diagnostics⟩

def isClean (p : Parsed) : Bool := p.expr.isSome && p.diagnostics.isEmpty

end Parsed

end LoxExpr
