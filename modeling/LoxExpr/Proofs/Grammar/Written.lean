import LoxExpr.Expr.Parenthesized
import LoxExpr.Proofs.Grammar.Derives
import LoxExpr.Proofs.Lexical.Composition
set_option autoImplicit false

namespace LoxExpr

def Literal.token : Literal → Token
  | .number x => ⟨.number, x.text, some (.number x), 1⟩
  | .str s => ⟨.string, "\"" ++ s ++ "\"", some (.str s), 1⟩
  | .bool true => ⟨.keyword .«true», "true", none, 1⟩
  | .bool false => ⟨.keyword .«false», "false", none, 1⟩
  | .nil => ⟨.keyword .«nil», "nil", none, 1⟩

namespace Expr

def tokens : Expr → List Token
  | literal v => [v.token]
  | grouping e => ⟨.symbol .leftParen, "(", none, 1⟩ ::
      (e.tokens ++ [⟨.symbol .rightParen, ")", none, 1⟩])
  | unary op e => op :: e.tokens
  | binary l op r => l.tokens ++ op :: r.tokens

def source (e : Expr) : String := Token.spaced e.tokens

def unplaced : Expr → Expr
  | literal v => literal v
  | grouping e => grouping e.unplaced
  | unary op e => unary op.unplaced e.unplaced
  | binary l op r => binary l.unplaced op.unplaced r.unplaced

theorem nesting_unplaced (e : Expr) : e.unplaced.nesting = e.nesting := by
  induction e with
  | literal v => rfl
  | grouping e ih => simp only [unplaced, nesting, ih]
  | unary op e ih => simp only [unplaced, nesting, ih]
  | binary l op r hl hr => simp only [unplaced, nesting, hl, hr]

theorem parenthesized_unplaced (e : Expr) : e.unplaced.parenthesized = e.parenthesized := by
  unfold parenthesized
  induction e with
  | literal v => rfl
  | grouping e ih => simp only [unplaced, fold, ih]
  | unary op e ih => simp only [unplaced, fold, ih]; rfl
  | binary l op r hl hr => simp only [unplaced, fold, hl, hr]; rfl

end Expr

def Token.IsOperator (t : Token) : Prop :=
  ∃ s : Symbol, t.kind = .symbol s ∧ t.lexeme = s.text ∧ t.literal = none

/-- The values that have a text: a negative number would be read as an operator and a number, and a
string cannot hold the quote that ends it. -/
def Literal.Writable : Literal → Prop
  | .number x => x.isFinite = true ∧ x.negative = false
  | .str s => '"' ∉ s.toList
  | .bool _ => True
  | .nil => True

/-- The tree binds with strength `n` and is written without further groups: 0 to 3 for the operators
of the levels, 4 for a prefix operator, 5 for a literal and a group. -/
inductive Expr.Binds : Nat → Expr → Prop where
  | literal {v : Literal} : v.Writable → Binds 5 (.literal v)
  | grouping {n : Nat} {e : Expr} : Binds n e → Binds 5 (.grouping e)
  | unary {op : Token} {n : Nat} {e : Expr} :
      op.IsOperator → op.kind.Prefixes → Binds n e → 4 ≤ n → Binds 4 (.unary op e)
  | binary {l : Level} {op : Token} {m n : Nat} {left right : Expr} :
      op.IsOperator → l.Joins op.kind → Binds m left → l.rank ≤ m →
      Binds n right → l.rank < n → Binds l.rank (.binary left op right)

namespace Phrase

def ofRank : Nat → Phrase
  | 0 => .level .equality
  | 1 => .level .comparison
  | 2 => .level .term
  | 3 => .level .factor
  | 4 => .unary
  | _ => .primary

theorem ofRank_rank (l : Level) : ofRank l.rank = .level l := by cases l <;> rfl

theorem ofRank_rank_succ (l : Level) : ofRank (l.rank + 1) = l.operand := by cases l <;> rfl

end Phrase

namespace Derives

theorem of_ofRank_succ {n : Nat} {ts : List Token} {e : Expr}
    (h : Derives (.ofRank (n + 1)) ts e) : Derives (.ofRank n) ts e := by
  match n with
  | 0 => exact alone (l := .equality) h
  | 1 => exact alone (l := .comparison) h
  | 2 => exact alone (l := .term) h
  | 3 => exact alone (l := .factor) h
  | 4 => exact .primary h
  | _ + 5 => exact h

/-- A tree that binds tightly stands wherever one may stand that binds less tightly. -/
theorem loosen {m n : Nat} {ts : List Token} {e : Expr} (h : Derives (.ofRank n) ts e)
    (hmn : m ≤ n) : Derives (.ofRank m) ts e := by
  induction hmn with
  | refl => exact h
  | step _ ih => exact ih h.of_ofRank_succ

theorem links_snoc {l : Level} {φ : Phrase} {left e right : Expr} {op : Token}
    {us vs : List Token} (h : Derives φ us e) (hφ : φ = .links l left) (hop : l.Joins op.kind)
    (hright : Derives l.operand vs right) :
    Derives (.links l left) (us ++ op :: vs) (.binary e op right) := by
  induction h generalizing left with
  | done =>
    cases hφ
    rw [List.nil_append, ← List.append_nil vs]
    exact .link hop hright .done
  | link hop₁ hd _ _ ih =>
    cases hφ
    have hlink := link hop₁ hd (ih rfl)
    rwa [← List.append_assoc] at hlink
  | _ => cases hφ

theorem binary {l : Level} {ts us : List Token} {left right : Expr} {op : Token}
    (hleft : Derives (.level l) ts left) (hop : l.Joins op.kind)
    (hright : Derives l.operand us right) :
    Derives (.level l) (ts ++ op :: us) (.binary left op right) := by
  cases hleft with
  | level hfirst hlinks =>
    rw [List.append_assoc]
    exact .level hfirst (hlinks.links_snoc rfl hop hright)

end Derives

theorem Literal.denotes_of_unplaced {v : Literal} {t : Token}
    (h : t.unplaced = v.token.unplaced) : t.Denotes v := by
  have hkind : t.kind = v.token.kind := Token.kind_of_unplaced h
  have hliteral : t.literal = v.token.literal := Token.literal_of_unplaced h
  cases v with
  | number x => exact .number hkind hliteral
  | str s => exact .string hkind hliteral
  | bool b =>
    cases b with
    | true => exact .yes hkind
    | false => exact .no hkind
  | nil => exact .nothing hkind

/-- The tokens of a tree derive it, whatever lines they stand on. -/
theorem Expr.Binds.derives {n : Nat} {e : Expr} (h : e.Binds n) {ts : List Token}
    (hts : ts.map Token.unplaced = e.tokens.map Token.unplaced) :
    ∃ f : Expr, f.unplaced = e.unplaced ∧ Derives (.ofRank n) ts f := by
  induction h generalizing ts with
  | @literal v _ =>
    obtain ⟨t, us, rfl, ht, hus⟩ := List.map_eq_cons_iff.1 hts
    obtain rfl := List.map_eq_nil_iff.1 hus
    exact ⟨.literal v, rfl, .leaf (Literal.denotes_of_unplaced ht)⟩
  | grouping _ ih =>
    simp only [tokens, List.map_cons, List.map_append, List.map_nil] at hts
    obtain ⟨o, us, rfl, ho, hus⟩ := List.map_eq_cons_iff.1 hts
    obtain ⟨vs, ws, rfl, hvs, hws⟩ := List.map_eq_append_iff.1 hus
    obtain ⟨c, xs, rfl, hc, hxs⟩ := List.map_eq_cons_iff.1 hws
    obtain rfl := List.map_eq_nil_iff.1 hxs
    obtain ⟨f, hf, hd⟩ := ih hvs
    have hopen : o.kind = .symbol .leftParen := Token.kind_of_unplaced ho
    have hclose : c.kind = .symbol .rightParen := Token.kind_of_unplaced hc
    refine ⟨.grouping f, by simp only [unplaced, hf], ?_⟩
    exact .group hopen (.expression (hd.loosen (Nat.zero_le _))) hclose
  | @unary op n e _ hprefix _ hn ih =>
    obtain ⟨t, us, rfl, ht, hus⟩ := List.map_eq_cons_iff.1 hts
    obtain ⟨f, hf, hd⟩ := ih hus
    have hkind : t.kind = op.kind := Token.kind_of_unplaced ht
    refine ⟨.unary t f, by simp only [unplaced, hf, ht], ?_⟩
    exact .unary (hkind ▸ hprefix) (hd.loosen hn)
  | @binary l op m n left right _ hop _ hm _ hn ihl ihr =>
    simp only [tokens, List.map_append, List.map_cons] at hts
    obtain ⟨us, vs, rfl, hus, hvs⟩ := List.map_eq_append_iff.1 hts
    obtain ⟨t, ws, rfl, ht, hws⟩ := List.map_eq_cons_iff.1 hvs
    obtain ⟨f, hf, hd⟩ := ihl hus
    obtain ⟨g, hg, he⟩ := ihr hws
    have hkind : t.kind = op.kind := Token.kind_of_unplaced ht
    have hleft := hd.loosen hm
    have hright := he.loosen hn
    rw [Phrase.ofRank_rank] at hleft ⊢
    rw [Nat.succ_eq_add_one, Phrase.ofRank_rank_succ] at hright
    refine ⟨.binary f t g, by simp only [unplaced, hf, hg, ht], ?_⟩
    exact hleft.binary (hkind ▸ hop) hright

end LoxExpr
