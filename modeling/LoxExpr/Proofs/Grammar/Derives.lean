import LoxExpr.Grammar
set_option autoImplicit false

/-!
The grammar of expressions as derivations, independent of any way of reading:

    expression → equality
    equality   → comparison ( ( "!=" | "==" ) comparison )*
    comparison → term ( ( ">" | ">=" | "<" | "<=" ) term )*
    term       → factor ( ( "-" | "+" ) factor )*
    factor     → unary ( ( "/" | "*" ) unary )*
    unary      → ( "!" | "-" ) unary | primary
    primary    → NUMBER | STRING | "true" | "false" | "nil" | "(" expression ")"

A derivation yields a tree. Only the kinds of tokens decide what is derivable, and a number or a
string has to carry its value.
-/

namespace LoxExpr

inductive Level.Joins : Level → Kind → Prop where
  | notEqual : Joins .equality (.symbol .bangEqual)
  | equal : Joins .equality (.symbol .equalEqual)
  | greater : Joins .comparison (.symbol .greater)
  | greaterEqual : Joins .comparison (.symbol .greaterEqual)
  | less : Joins .comparison (.symbol .less)
  | lessEqual : Joins .comparison (.symbol .lessEqual)
  | minus : Joins .term (.symbol .minus)
  | plus : Joins .term (.symbol .plus)
  | slash : Joins .factor (.symbol .slash)
  | star : Joins .factor (.symbol .star)

inductive Kind.Prefixes : Kind → Prop where
  | bang : Prefixes (.symbol .bang)
  | minus : Prefixes (.symbol .minus)

inductive Token.Denotes (t : Token) : Literal → Prop where
  | number {v : Literal} : t.kind = .number → t.literal = some v → Denotes t v
  | string {v : Literal} : t.kind = .string → t.literal = some v → Denotes t v
  | yes : t.kind = .keyword .«true» → Denotes t (.bool true)
  | no : t.kind = .keyword .«false» → Denotes t (.bool false)
  | nothing : t.kind = .keyword .«nil» → Denotes t .nil

/-- What can be derived. `links l e` is the repetition on a level: operators with their right
operands, after the tree `e` of all that stands before them. -/
inductive Phrase where
  | expression
  | level (l : Level)
  | links (l : Level) (left : Expr)
  | unary
  | primary

def Level.operand : Level → Phrase
  | .equality => .level .comparison
  | .comparison => .level .term
  | .term => .level .factor
  | .factor => .unary

inductive Derives : Phrase → List Token → Expr → Prop where
  | expression {ts : List Token} {e : Expr} :
      Derives (.level .equality) ts e → Derives .expression ts e
  | level {l : Level} {ts us : List Token} {first e : Expr} :
      Derives l.operand ts first → Derives (.links l first) us e → Derives (.level l) (ts ++ us) e
  | done {l : Level} {e : Expr} : Derives (.links l e) [] e
  | link {l : Level} {op : Token} {ts us : List Token} {left right e : Expr} :
      l.Joins op.kind → Derives l.operand ts right →
      Derives (.links l (.binary left op right)) us e →
      Derives (.links l left) (op :: (ts ++ us)) e
  | unary {op : Token} {ts : List Token} {e : Expr} :
      op.kind.Prefixes → Derives .unary ts e → Derives .unary (op :: ts) (.unary op e)
  | primary {ts : List Token} {e : Expr} : Derives .primary ts e → Derives .unary ts e
  | leaf {t : Token} {v : Literal} : t.Denotes v → Derives .primary [t] (.literal v)
  | group {o c : Token} {ts : List Token} {e : Expr} :
      o.kind = .symbol .leftParen → Derives .expression ts e → c.kind = .symbol .rightParen →
      Derives .primary (o :: (ts ++ [c])) (.grouping e)

/-- The most groups and prefix operators on a path from the root to a leaf. -/
def Expr.nesting : Expr → Nat
  | .literal _ => 0
  | .grouping e => e.nesting + 1
  | .unary _ e => e.nesting + 1
  | .binary l _ r => max l.nesting r.nesting

theorem Kind.Prefixes.ne_eof {k : Kind} (h : k.Prefixes) : k ≠ .eof := by
  cases h <;> decide

namespace Level

theorem accepts_iff_joins {l : Level} {k : Kind} : l.accepts k = true ↔ l.Joins k := by
  constructor
  · intro h
    obtain ⟨s, hs, rfl⟩ := accepts_iff.1 h
    cases l <;> simp only [symbols, List.mem_cons, List.not_mem_nil, or_false] at hs
    · rcases hs with rfl | rfl
      · exact .notEqual
      · exact .equal
    · rcases hs with rfl | rfl | rfl | rfl
      · exact .greater
      · exact .greaterEqual
      · exact .less
      · exact .lessEqual
    · rcases hs with rfl | rfl
      · exact .minus
      · exact .plus
    · rcases hs with rfl | rfl
      · exact .slash
      · exact .star
  · intro h
    cases h <;> decide

theorem Joins.unique {l m : Level} {k : Kind} (hl : l.Joins k) (hm : m.Joins k) : l = m :=
  accepts_unique (accepts_iff_joins.2 hl) (accepts_iff_joins.2 hm)

theorem Joins.ne_eof {l : Level} {k : Kind} (h : l.Joins k) : k ≠ .eof := by
  cases h <;> decide

def rank : Level → Nat
  | equality => 0
  | comparison => 1
  | term => 2
  | factor => 3

theorem rank_injective {l m : Level} (h : l.rank = m.rank) : l = m := by
  revert h
  cases l <;> cases m <;> decide

end Level

namespace Phrase

/-- The rank of the loosest level on which the phrase would go on with an operator. -/
def rank : Phrase → Nat
  | expression => 0
  | level l => l.rank
  | links l _ => l.rank
  | unary => 4
  | primary => 4

/-- No token at the head of the rest would go on with the phrase. -/
def Ends (φ : Phrase) (rest : List Token) : Prop :=
  ∀ t ∈ rest.head?, ∀ l : Level, φ.rank ≤ l.rank → ¬ l.Joins t.kind

theorem rank_operand (l : Level) : l.operand.rank = l.rank + 1 := by cases l <;> rfl

theorem Ends.mono {φ ψ : Phrase} {rest : List Token} (h : φ.Ends rest) (hr : φ.rank ≤ ψ.rank) :
    ψ.Ends rest := fun t ht l hl => h t ht l (Nat.le_trans hr hl)

theorem ends_of_four_le {φ : Phrase} (h : 4 ≤ φ.rank) (rest : List Token) : φ.Ends rest := by
  intro t ht l hl
  have hm : l.rank ≤ 3 := by cases l <;> decide
  omega

theorem ends_operand_of_joins {l : Level} {t : Token} (h : l.Joins t.kind) (ts : List Token) :
    l.operand.Ends (t :: ts) := by
  intro u hu m hm hj
  obtain rfl : t = u := by simpa using hu
  have hu := congrArg Level.rank (h.unique hj)
  rw [rank_operand] at hm
  omega

theorem ends_of_operand {l : Level} {t : Token} {ts : List Token} (h : ¬ l.Joins t.kind)
    (ho : l.operand.Ends (t :: ts)) : (Phrase.level l).Ends (t :: ts) := by
  intro u hu m hm hj
  obtain rfl : t = u := by simpa using hu
  by_cases hml : m.rank = l.rank
  · exact h (Level.rank_injective hml ▸ hj)
  · refine ho t rfl m ?_ hj
    rw [rank_operand]
    simp only [rank] at hm
    omega

end Phrase

theorem Derives.alone {l : Level} {ts : List Token} {e : Expr} (h : Derives l.operand ts e) :
    Derives (.level l) ts e := by
  have hdone := level h .done
  rwa [List.append_nil] at hdone

theorem Derives.ends_operand {l : Level} {left e : Expr} {us rest : List Token}
    (h : Derives (.links l left) us e) (hr : (Phrase.level l).Ends rest) :
    l.operand.Ends (us ++ rest) := by
  cases h with
  | done => exact hr.mono (by rw [Phrase.rank_operand]; exact Nat.le_succ _)
  | link hop _ _ => exact Phrase.ends_operand_of_joins hop _

theorem Derives.nesting_links {l : Level} {left e : Expr} {us : List Token} {φ : Phrase}
    (h : Derives φ us e) (hφ : φ = .links l left) : left.nesting ≤ e.nesting := by
  induction h generalizing left with
  | done => cases hφ; exact Nat.le_refl _
  | link _ _ _ _ ih =>
    cases hφ
    exact Nat.le_trans (Nat.le_max_left _ _) (ih rfl)
  | _ => cases hφ

end LoxExpr
