import LoxExpr.Proofs.Grammar.Depth
set_option autoImplicit false

namespace LoxExpr

/-- Where steps are made in one way only and come to an end, all that is reached is on the way to
that end. -/
theorem reaches_end {α : Type} {r : α → α → Prop} (hr : Relator.RightUnique r) {a b c : α}
    (hb : Relation.ReflTransGen r a b) (hc : Relation.ReflTransGen r a c) (hend : ∀ x, ¬ r c x) :
    Relation.ReflTransGen r b c := by
  rcases Relation.ReflTransGen.total_of_right_unique hr hb hc with hto | hfrom
  · exact hto
  · rcases hfrom.cases_head with rfl | ⟨x, hstep, -⟩
    · exact .refl
    · exact absurd hstep (hend x)

namespace Frame

def caller : Frame → Phrase
  | expression => .expression
  | first l => .level l
  | right l left _ => .links l left
  | sign _ => .unary
  | unary => .unary
  | group => .primary

def callee : Frame → Phrase
  | expression => .level .equality
  | first l => l.operand
  | right l _ _ => l.operand
  | sign _ => .unary
  | unary => .primary
  | group => .expression

/-- The depth at which the call that is waited for was made, if the waiting one was made at `d`. -/
def inside (f : Frame) (d : Nat) : Nat := if f.isNested then d + 1 else d

def outside (f : Frame) (d : Nat) : Nat := if f.isNested then d - 1 else d

theorem outside_inside (f : Frame) (d : Nat) : f.outside (f.inside d) = d := by
  rw [outside, inside]
  split <;> rfl

end Frame

/-- The second list is the first one or what follows its first token, which is no end of the
text. -/
inductive Passes : List Token → List Token → Prop where
  | none {ts : List Token} : Passes ts ts
  | one {t : Token} {ts : List Token} : t.kind ≠ .eof → Passes (t :: ts) ts

theorem Token.kind_ne_eof_of_role {t : Token} (h : t.role ≠ .other) : t.kind ≠ .eof := by
  intro hk
  exact h (by simp [role, hk])

theorem Outcome.passes_closeGroup (e : Expr) (ts : List Token) :
    Passes ts (closeGroup e ts).rest := by
  cases ts with
  | nil => exact .none
  | cons t ts =>
    rw [closeGroup]
    split
    · next h => exact .one (by simp [h])
    · exact .none

namespace Counted

inductive Moves : Counted → Counted → Prop where
  | call {f : Frame} {k : List Frame} {ts us : List Token} {d : Nat} :
      (f.isNested = true → d < maxNesting) → Passes ts us →
      Moves ⟨⟨.call f.caller, k, ts⟩, d⟩ ⟨⟨.call f.callee, f :: k, us⟩, f.inside d⟩
  | finish {φ : Phrase} {k : List Frame} {ts us : List Token} {d : Nat}
      {r : Except SyntaxError Expr} : Passes ts us →
      Moves ⟨⟨.call φ, k, ts⟩, d⟩ ⟨⟨.answer r, k, us⟩, d⟩
  | resume {f : Frame} {k : List Frame} {ts us : List Token} {d : Nat}
      {r r' : Except SyntaxError Expr} : Passes ts us →
      Moves ⟨⟨.answer r, f :: k, ts⟩, d⟩ ⟨⟨.answer r', k, us⟩, f.outside d⟩
  | goOn {f : Frame} {k : List Frame} {ts : List Token} {d : Nat} {r : Except SyntaxError Expr}
      {l : Level} {e : Expr} : f.caller = .level l ∨ (∃ left, f.caller = .links l left) →
      Moves ⟨⟨.answer r, f :: k, ts⟩, d⟩ ⟨⟨.call (.links l e), k, ts⟩, d⟩

theorem moves_nested {f : Frame} (k : List Frame) {ts us : List Token} (d : Nat)
    (hf : f.isNested = true) (h : Passes ts us) :
    Moves ⟨⟨.call f.caller, k, ts⟩, d⟩ (nested f.callee f k us d) := by
  by_cases hd : maxNesting ≤ d
  · rw [nested_limit hd]
    exact .finish h
  · have hlt := Nat.lt_of_not_le hd
    have hmove : Moves ⟨⟨.call f.caller, k, ts⟩, d⟩ ⟨⟨.call f.callee, f :: k, us⟩, f.inside d⟩ :=
      .call (fun _ => hlt) h
    rw [nested_below hlt]
    rwa [Frame.inside, if_pos hf] at hmove

theorem moves_of_step {c c' : Counted} (h : c.step = some c') : Moves c c' := by
  obtain ⟨⟨task, k, ts⟩, d⟩ := c
  cases task with
  | call φ =>
    cases φ with
    | expression =>
      cases h
      exact moves_nested (f := .expression) k d rfl .none
    | level l =>
      cases h
      exact .call (f := .first l) (by intro hf; cases hf) .none
    | links l left =>
      cases h
      cases ts with
      | nil => exact .finish .none
      | cons t ts =>
        rw [Descent.callLinks]
        split
        · next ht =>
          have htoken := (Level.accepts_iff_joins.1 ht).ne_eof
          exact .call (f := .right l left t) (by intro hf; cases hf) (.one htoken)
        · exact .finish .none
    | unary =>
      cases h
      cases ts with
      | nil => exact .call (f := .unary) (by intro hf; cases hf) .none
      | cons t ts =>
        rw [callUnary]
        split
        · next ht =>
          have htoken : t.kind ≠ .eof := Token.kind_ne_eof_of_role (by simp [ht])
          exact moves_nested (f := .sign t) k d rfl (.one htoken)
        · next ht =>
          rw [Descent.callUnary, if_neg ht]
          exact .call (f := .unary) (by intro hf; cases hf) .none
    | primary =>
      cases h
      cases ts with
      | nil => exact .finish .none
      | cons t ts =>
        rw [Descent.callPrimary]
        split
        · next ht =>
          have htoken : t.kind ≠ .eof := Token.kind_ne_eof_of_role (by simp [ht])
          exact .call (f := .group) (by intro hf; cases hf) (.one htoken)
        · next ht => exact .finish (.one (Token.kind_ne_eof_of_role (by simp [ht])))
        · next ht => exact .finish (.one (Token.kind_ne_eof_of_role (by simp [ht])))
        · exact .finish .none
  | answer r =>
    cases k with
    | nil => cases h
    | cons f k =>
      cases r with
      | error e =>
        cases h
        exact .resume .none
      | ok e =>
        cases h
        cases f with
        | first l => exact .goOn (.inl rfl)
        | right l left op => exact .goOn (.inr ⟨left, rfl⟩)
        | group => exact .resume (f := .group) (Outcome.passes_closeGroup e ts)
        | expression => exact .resume (f := .expression) .none
        | sign op => exact .resume (f := .sign op) .none
        | unary => exact .resume (f := .unary) .none

theorem Moves.passes {c c' : Counted} (h : Moves c c') :
    Passes c.descent.ahead c'.descent.ahead := by
  cases h with
  | call _ h => exact h
  | finish h => exact h
  | resume h => exact h
  | goOn _ => exact .none

end Counted

end LoxExpr
