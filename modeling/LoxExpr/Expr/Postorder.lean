import LoxExpr.Expr
set_option autoImplicit false

/-!
Trees as lists of nodes, children before parents and left before right. The list determines the
tree: `read` rebuilds it on a stack, and any nodes may follow it.
-/

namespace LoxExpr

inductive Node where
  | literal (value : Literal)
  | grouping
  | unary (operator : Token)
  | binary (operator : Token)
  deriving DecidableEq, Repr

namespace Expr

/-- The walk that puts the nodes of a tree before a list. -/
def listing : Walk (List Node → List Node) where
  literal v tail := .literal v :: tail
  grouping e tail := e (.grouping :: tail)
  unary op e tail := e (.unary op :: tail)
  binary l op r tail := l (r (.binary op :: tail))

def postorder (e : Expr) : List Node := e.fold listing []

end Expr

namespace Node

def push : Node → List Expr → Option (List Expr)
  | literal v, stack => some (.literal v :: stack)
  | grouping, e :: stack => some (.grouping e :: stack)
  | unary op, e :: stack => some (.unary op e :: stack)
  | binary op, r :: l :: stack => some (.binary l op r :: stack)
  | _, _ => none

def read : List Expr → List Node → Option (List Expr)
  | stack, [] => some stack
  | stack, n :: ns => (n.push stack).bind (read · ns)

/-- Reading a tree's nodes puts the tree on the stack, whatever stands there and follows. -/
theorem read_listing (e : Expr) (stack : List Expr) (tail : List Node) :
    read stack (e.fold Expr.listing tail) = read (e :: stack) tail := by
  induction e generalizing stack tail with
  | literal v => rfl
  | grouping e ih => simp only [Expr.fold, Expr.listing] at *; rw [ih]; rfl
  | unary op e ih => simp only [Expr.fold, Expr.listing] at *; rw [ih]; rfl
  | binary l op r hl hr => simp only [Expr.fold, Expr.listing] at *; rw [hl, hr]; rfl

end Node

def Expr.ofPostorder? (nodes : List Node) : Option Expr :=
  match Node.read [] nodes with
  | some [e] => some e
  | _ => none

end LoxExpr
