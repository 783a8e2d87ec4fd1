import LoxExpr.Token
set_option autoImplicit false

namespace LoxExpr

inductive Expr where
  | literal (value : Literal)
  | grouping (inner : Expr)
  | unary (operator : Token) (operand : Expr)
  | binary (left : Expr) (operator : Token) (right : Expr)
  deriving DecidableEq, Repr

/-- What a walk does at each node. -/
structure Expr.Walk (ρ : Type) where
  literal : Literal → ρ
  grouping : ρ → ρ
  unary : Token → ρ → ρ
  binary : ρ → Token → ρ → ρ

namespace Expr

def fold {ρ : Type} (w : Walk ρ) : Expr → ρ
  | literal v => w.literal v
  | grouping e => w.grouping (e.fold w)
  | unary op e => w.unary op (e.fold w)
  | binary l op r => w.binary (l.fold w) op (r.fold w)

def equal : Expr → Expr → Bool
  | literal v, literal w => v.equal w
  | grouping e, grouping f => e.equal f
  | unary o e, unary p f => o.equal p && e.equal f
  | binary l o r, binary m p s => l.equal m && o.equal p && r.equal s
  | _, _ => false

end Expr

/-- Whether, when and in which order the children are visited is up to the visitor. -/
structure Visitor (ρ : Type) where
  literal : Literal → ρ
  grouping : Expr → ρ
  unary : Token → Expr → ρ
  binary : Expr → Token → Expr → ρ

namespace Expr

variable {ρ : Type}

def accept (v : Visitor ρ) : Expr → ρ
  | literal x => v.literal x
  | grouping e => v.grouping e
  | unary op e => v.unary op e
  | binary l op r => v.binary l op r

def Walk.visitor (w : Walk ρ) : Visitor ρ where
  literal := w.literal
  grouping e := w.grouping (e.fold w)
  unary op e := w.unary op (e.fold w)
  binary l op r := w.binary (l.fold w) op (r.fold w)

theorem accept_visitor (w : Walk ρ) (e : Expr) : e.accept w.visitor = e.fold w := by
  cases e <;> rfl

end Expr

end LoxExpr
