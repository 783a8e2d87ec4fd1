import LoxExpr.Expr
set_option autoImplicit false

namespace LoxExpr.Expr

def parenthesize : Walk String where
  literal v := v.text
  grouping e := "(group " ++ e ++ ")"
  unary op e := "(" ++ op.lexeme ++ " " ++ e ++ ")"
  binary l op r := "(" ++ op.lexeme ++ " " ++ l ++ " " ++ r ++ ")"

def parenthesized (e : Expr) : String := e.fold parenthesize

def chars (e : Expr) : List Char := e.parenthesized.toList

theorem chars_literal (v : Literal) : (literal v).chars = v.text.toList := rfl

theorem chars_grouping (e : Expr) (rest : List Char) : (grouping e).chars ++ rest =
    '(' :: ("group".toList ++ ' ' :: (e.chars ++ ')' :: rest)) := by
  simp [chars, parenthesized, fold, parenthesize]

theorem chars_unary (op : Token) (e : Expr) (rest : List Char) : (unary op e).chars ++ rest =
    '(' :: (op.lexeme.toList ++ ' ' :: (e.chars ++ ')' :: rest)) := by
  simp [chars, parenthesized, fold, parenthesize]

theorem chars_binary (l : Expr) (op : Token) (r : Expr) (rest : List Char) :
    (binary l op r).chars ++ rest =
      '(' :: (op.lexeme.toList ++ ' ' :: (l.chars ++ ' ' :: (r.chars ++ ')' :: rest))) := by
  simp [chars, parenthesized, fold, parenthesize]

end LoxExpr.Expr
