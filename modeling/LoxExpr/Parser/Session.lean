import LoxExpr.Parser
set_option autoImplicit false

namespace LoxExpr

inductive Command where
  | parse
  | parseExpression
  | synchronize
  | isAtEnd
  deriving DecidableEq, Repr

inductive Answer where
  | tree (expr : Option Expr)
  | outcome (result : Except SyntaxError Expr)
  | synchronized
  | atEnd (answer : Bool)

structure Session where
  parser : Parser
  diagnostics : Diagnostics
  deriving DecidableEq, Repr

namespace Session

def step (s : Session) : Command → Answer × Session
  | .parse =>
    let (expr, parser, diagnostics) := s.parser.parse s.diagnostics
    (.tree expr, ⟨parser, diagnostics⟩)
  | .parseExpression =>
    let (result, parser) := s.parser.parseExpression
    (.outcome result, { s with parser })
  | .synchronize => (.synchronized, { s with parser := s.parser.synchronize })
  | .isAtEnd => (.atEnd s.parser.isAtEnd, s)

def run (s : Session) : List Command → List (Answer × Session)
  | [] => []
  | c :: cs =>
    let (answer, next) := s.step c
    (answer, next) :: run next cs

def after (s : Session) (cs : List Command) : Session := cs.foldl (fun s c => (s.step c).2) s

theorem run_cons (s : Session) (c : Command) (cs : List Command) :
    s.run (c :: cs) = s.step c :: (s.step c).2.run cs := rfl

theorem run_concat (s : Session) (cs : List Command) (c : Command) :
    s.run (cs ++ [c]) = s.run cs ++ [(s.after cs).step c] := by
  induction cs generalizing s with
  | nil => rfl
  | cons d cs ih => rw [List.cons_append, run_cons, run_cons, ih, List.cons_append]; rfl

end Session

end LoxExpr
