import LoxExpr.Diagnostic
import LoxExpr.Expr
set_option autoImplicit false

/-!
Grammar rules as readers of a token list. A rule answers a tree or the first error, and the tokens
from where it stopped, which are always an end piece of those it was given. Every group and every
prefix operator that is open around a token counts against a bound on nesting, the expression itself
counting once.
-/

namespace LoxExpr

/-- A level of binary operators that bind alike and associate to the left. -/
inductive Level where
  | equality
  | comparison
  | term
  | factor
  deriving DecidableEq, Repr

namespace Level

def symbols : Level → List Symbol
  | equality => [.bangEqual, .equalEqual]
  | comparison => [.greater, .greaterEqual, .less, .lessEqual]
  | term => [.minus, .plus]
  | factor => [.slash, .star]

def accepts (l : Level) : Kind → Bool
  | .symbol s => s ∈ l.symbols
  | _ => false

theorem accepts_iff {l : Level} {k : Kind} :
    l.accepts k = true ↔ ∃ s ∈ l.symbols, k = .symbol s := by
  cases k <;> simp [accepts]

theorem accepts_unique {l m : Level} {k : Kind} (hl : l.accepts k = true)
    (hm : m.accepts k = true) : l = m := by
  obtain ⟨s, hs, rfl⟩ := accepts_iff.1 hl
  obtain ⟨t, ht, same⟩ := accepts_iff.1 hm
  obtain rfl := Kind.symbol.inj same
  revert hs ht
  cases l <;> cases m <;> cases s <;> decide

end Level

def Kind.isPrefixOperator : Kind → Bool
  | .symbol .bang => true
  | .symbol .minus => true
  | _ => false

structure Outcome where
  result : Except SyntaxError Expr
  rest : List Token

/-- The token that a reader of the list looks at; past the last one it is an end of the text. -/
def current : List Token → Token
  | [] => .eof 1
  | t :: _ => t

namespace Outcome

def refuse (reason : SyntaxError.Reason) (ts : List Token) : Outcome :=
  ⟨.error ⟨reason, current ts⟩, ts⟩

def map (f : Expr → Expr) (o : Outcome) : Outcome := ⟨o.result.map f, o.rest⟩

def closeGroup (e : Expr) : List Token → Outcome
  | [] => refuse .expectRightParen []
  | t :: ts =>
      if t.kind = .symbol .rightParen then ⟨.ok (.grouping e), ts⟩
      else refuse .expectRightParen (t :: ts)

def close (o : Outcome) : Outcome :=
  match o.result with
  | .ok e => closeGroup e o.rest
  | .error e => ⟨.error e, o.rest⟩

theorem closeGroup_suffix (e : Expr) (ts : List Token) : (closeGroup e ts).rest <:+ ts := by
  cases ts with
  | nil => exact List.suffix_refl []
  | cons t ts =>
    simp only [closeGroup]
    split
    · exact List.suffix_cons t ts
    · exact List.suffix_refl _

theorem close_suffix (o : Outcome) : o.close.rest <:+ o.rest := by
  unfold close
  split
  · exact closeGroup_suffix _ _
  · exact List.suffix_refl _

end Outcome

structure Rule where
  run : List Token → Outcome
  rest_suffix : ∀ ts : List Token, (run ts).rest <:+ ts

namespace Rule

theorem rest_length_le (p : Rule) (ts : List Token) : (p.run ts).rest.length ≤ ts.length :=
  (p.rest_suffix ts).length_le

/-- The rule below the innermost nesting that is allowed. -/
def deny : Rule where
  run := Outcome.refuse .tooMuchNesting
  rest_suffix ts := List.suffix_refl ts

/-- Reads on from a left operand, taking operator and right operand as long as an operator of the
level follows, and putting each tree to the left of the next operator. -/
def chainFrom (l : Level) (operand : Rule) (left : Expr) : List Token → Outcome
  | [] => ⟨.ok left, []⟩
  | t :: ts =>
    if l.accepts t.kind then
      let right := operand.run ts
      match right.result with
      | .ok e => chainFrom l operand (.binary left t e) right.rest
      | .error e => ⟨.error e, right.rest⟩
    else ⟨.ok left, t :: ts⟩
termination_by ts => ts.length
decreasing_by exact Nat.lt_succ_of_le (operand.rest_length_le ts)

theorem chainFrom_suffix (l : Level) (operand : Rule) (left : Expr) (ts : List Token) :
    (chainFrom l operand left ts).rest <:+ ts := by
  induction left, ts using chainFrom.induct l operand with
  | case1 left => simp [chainFrom]
  | case2 left t ts accepts right e h ih =>
    rw [chainFrom]
    simp only [accepts, ↓reduceIte, right, h]
    exact ih.trans ((operand.rest_suffix ts).trans (List.suffix_cons t ts))
  | case3 left t ts accepts right e h =>
    rw [chainFrom]
    simp only [accepts, ↓reduceIte, right, h]
    exact (operand.rest_suffix ts).trans (List.suffix_cons t ts)
  | case4 left t ts accepts =>
    rw [chainFrom]
    simp only [accepts]
    exact List.suffix_refl _

def chain (l : Level) (operand : Rule) : Rule where
  run ts :=
    let first := operand.run ts
    match first.result with
    | .ok e => chainFrom l operand e first.rest
    | .error e => ⟨.error e, first.rest⟩
  rest_suffix ts := by
    dsimp only
    split
    · exact (chainFrom_suffix l operand _ _).trans (operand.rest_suffix ts)
    · exact operand.rest_suffix ts

/-- A literal, a group around `inner`, or a prefix operator before `operand`. -/
def operandOver (operand inner : Rule) : Rule where
  run
    | [] => .refuse .expectExpression []
    | t :: ts =>
      if t.kind.isPrefixOperator then (operand.run ts).map (.unary t)
      else match t.kind with
        | .keyword .«false» => ⟨.ok (.literal (.bool false)), ts⟩
        | .keyword .«true» => ⟨.ok (.literal (.bool true)), ts⟩
        | .keyword .«nil» => ⟨.ok (.literal .nil), ts⟩
        | .number | .string => match t.literal with
          | some v => ⟨.ok (.literal v), ts⟩
          | none => ⟨.error ⟨.expectLiteralValue, t⟩, ts⟩
        | .symbol .leftParen => (inner.run ts).close
        | _ => .refuse .expectExpression (t :: ts)
  rest_suffix
    | [] => List.suffix_refl []
    | t :: ts => by
      dsimp only
      split
      · exact (operand.rest_suffix ts).trans (List.suffix_cons t ts)
      split
      · exact List.suffix_cons t ts
      · exact List.suffix_cons t ts
      · exact List.suffix_cons t ts
      · split <;> exact List.suffix_cons t ts
      · split <;> exact List.suffix_cons t ts
      · exact ((inner.run ts).close_suffix.trans (inner.rest_suffix ts)).trans
          (List.suffix_cons t ts)
      · exact List.suffix_refl _

def levels (operand : Rule) : Rule :=
  chain .equality (chain .comparison (chain .term (chain .factor operand)))

/-- The operand rule inside which so many groups and prefix operators may still be opened. -/
def operand : Nat → Rule
  | 0 => operandOver deny deny
  | n + 1 =>
    let inside := operand n
    operandOver inside (levels inside)

/-- The expression rule for so many nestings, the expression being the first of them. -/
def expression : Nat → Rule
  | 0 => deny
  | n + 1 => levels (operand n)

end Rule

def maxNesting : Nat := 128

end LoxExpr
