import LoxExpr.Proofs.Grammar.Derives
set_option autoImplicit false

namespace LoxExpr

inductive Role where
  | sign
  | opening
  | leaf (value : Literal)
  | valueless
  | other
  deriving DecidableEq, Repr

def Token.role (t : Token) : Role :=
  match t.kind with
  | .symbol .bang | .symbol .minus => .sign
  | .symbol .leftParen => .opening
  | .keyword .«true» => .leaf (.bool true)
  | .keyword .«false» => .leaf (.bool false)
  | .keyword .«nil» => .leaf .nil
  | .number | .string => match t.literal with
    | some v => .leaf v
    | none => .valueless
  | _ => .other

namespace Token

theorem role_eq_sign_iff {t : Token} : t.role = .sign ↔ t.kind.Prefixes := by
  obtain ⟨kind, lexeme, literal, line⟩ := t
  constructor
  · intro h
    cases kind with
    | symbol s =>
      cases s with
      | bang => exact .bang
      | minus => exact .minus
      | _ => cases h
    | keyword k => cases k <;> cases h
    | number => cases literal <;> cases h
    | string => cases literal <;> cases h
    | identifier => cases h
    | eof => cases h
  · intro h
    cases h <;> rfl

theorem role_eq_opening_iff {t : Token} : t.role = .opening ↔ t.kind = .symbol .leftParen := by
  obtain ⟨kind, lexeme, literal, line⟩ := t
  constructor
  · intro h
    cases kind with
    | symbol s =>
      cases s with
      | leftParen => rfl
      | _ => cases h
    | keyword k => cases k <;> cases h
    | number => cases literal <;> cases h
    | string => cases literal <;> cases h
    | identifier => cases h
    | eof => cases h
  · intro h
    cases h
    rfl

theorem role_eq_leaf_iff {t : Token} {v : Literal} : t.role = .leaf v ↔ t.Denotes v := by
  constructor
  · intro h
    unfold role at h
    split at h <;> rename_i hk
    · contradiction
    · contradiction
    · contradiction
    · cases h; exact .yes hk
    · cases h; exact .no hk
    · cases h; exact .nothing hk
    · split at h
      · next w hw => cases h; exact .number hk hw
      · contradiction
    · split at h
      · next w hw => cases h; exact .string hk hw
      · contradiction
    · contradiction
  · intro h
    cases h with
    | number hk hv => simp [role, hk, hv]
    | string hk hv => simp [role, hk, hv]
    | yes hk => simp [role, hk]
    | no hk => simp [role, hk]
    | nothing hk => simp [role, hk]

theorem role_eq_valueless_iff {t : Token} :
    t.role = .valueless ↔ (t.kind = .number ∨ t.kind = .string) ∧ t.literal = none := by
  constructor
  · intro h
    unfold role at h
    split at h <;> rename_i hk
    · contradiction
    · contradiction
    · contradiction
    · contradiction
    · contradiction
    · contradiction
    · split at h
      · contradiction
      · next hv => exact ⟨.inl hk, hv⟩
    · split at h
      · contradiction
      · next hv => exact ⟨.inr hk, hv⟩
    · contradiction
  · rintro ⟨hk | hk, hv⟩
    · simp [role, hk, hv]
    · simp [role, hk, hv]

end Token

namespace Rule

theorem operandOver_nil (p q : Rule) :
    (operandOver p q).run [] = .refuse .expectExpression [] := rfl

theorem operandOver_cons (p q : Rule) (t : Token) (ts : List Token) :
    (operandOver p q).run (t :: ts) = match t.role with
      | .sign => (p.run ts).map (.unary t)
      | .opening => (q.run ts).close
      | .leaf v => ⟨.ok (.literal v), ts⟩
      | .valueless => ⟨.error ⟨.expectLiteralValue, t⟩, ts⟩
      | .other => .refuse .expectExpression (t :: ts) := by
  obtain ⟨k, lexeme, literal, line⟩ := t
  cases k with
  | symbol s => cases s <;> rfl
  | keyword w => cases w <;> rfl
  | number => cases literal <;> rfl
  | string => cases literal <;> rfl
  | identifier => rfl
  | eof => rfl

theorem chainFrom_nil (l : Level) (p : Rule) (left : Expr) :
    chainFrom l p left [] = ⟨.ok left, []⟩ := by rw [chainFrom]

theorem chainFrom_stop {l : Level} {t : Token} (p : Rule) (left : Expr) (ts : List Token)
    (h : ¬ l.Joins t.kind) : chainFrom l p left (t :: ts) = ⟨.ok left, t :: ts⟩ := by
  rw [chainFrom]
  simp [mt Level.accepts_iff_joins.1 h]

theorem chainFrom_ok {l : Level} {t : Token} {p : Rule} {ts rest : List Token} {right : Expr}
    (left : Expr) (h : l.Joins t.kind) (hp : p.run ts = ⟨.ok right, rest⟩) :
    chainFrom l p left (t :: ts) = chainFrom l p (.binary left t right) rest := by
  rw [chainFrom]
  simp [Level.accepts_iff_joins.2 h, hp]

theorem chainFrom_error {l : Level} {t : Token} {p : Rule} {ts rest : List Token} {e : SyntaxError}
    (left : Expr) (h : l.Joins t.kind) (hp : p.run ts = ⟨.error e, rest⟩) :
    chainFrom l p left (t :: ts) = ⟨.error e, rest⟩ := by
  rw [chainFrom]
  simp [Level.accepts_iff_joins.2 h, hp]

theorem chain_ok {l : Level} {p : Rule} {ts rest : List Token} {first : Expr}
    (hp : p.run ts = ⟨.ok first, rest⟩) : (chain l p).run ts = chainFrom l p first rest := by
  simp [chain, hp]

theorem chain_error {l : Level} {p : Rule} {ts rest : List Token} {e : SyntaxError}
    (hp : p.run ts = ⟨.error e, rest⟩) : (chain l p).run ts = ⟨.error e, rest⟩ := by
  simp [chain, hp]

end Rule

namespace Outcome

theorem map_ok (f : Expr → Expr) (e : Expr) (ts : List Token) :
    (⟨.ok e, ts⟩ : Outcome).map f = ⟨.ok (f e), ts⟩ := rfl

theorem map_error (f : Expr → Expr) (e : SyntaxError) (ts : List Token) :
    (⟨.error e, ts⟩ : Outcome).map f = ⟨.error e, ts⟩ := rfl

theorem map_eq_ok {f : Expr → Expr} {o : Outcome} {e : Expr} {ts : List Token}
    (h : o.map f = ⟨.ok e, ts⟩) : ∃ x, o = ⟨.ok x, ts⟩ ∧ f x = e := by
  obtain ⟨r, rest⟩ := o
  cases r with
  | error x => rw [map_error] at h; cases h
  | ok x => cases h; exact ⟨x, rfl, rfl⟩

theorem map_eq_error {f : Expr → Expr} {o : Outcome} {e : SyntaxError} {ts : List Token}
    (h : o.map f = ⟨.error e, ts⟩) : o = ⟨.error e, ts⟩ := by
  obtain ⟨r, rest⟩ := o
  cases r with
  | error x => exact h
  | ok x => rw [map_ok] at h; cases h

theorem close_error (e : SyntaxError) (ts : List Token) :
    (⟨.error e, ts⟩ : Outcome).close = ⟨.error e, ts⟩ := rfl

theorem close_ok_cons {t : Token} (e : Expr) (ts : List Token)
    (h : t.kind = .symbol .rightParen) :
    (⟨.ok e, t :: ts⟩ : Outcome).close = ⟨.ok (.grouping e), ts⟩ := by
  simp [close, closeGroup, h]

theorem close_ok_refuse (e : Expr) {ts : List Token}
    (h : ∀ t ∈ ts.head?, t.kind ≠ .symbol .rightParen) :
    (⟨.ok e, ts⟩ : Outcome).close = refuse .expectRightParen ts := by
  cases ts with
  | nil => rfl
  | cons t ts => simp [close, closeGroup, h t rfl]

theorem close_eq_ok {o : Outcome} {e : Expr} {ts : List Token} (h : o.close = ⟨.ok e, ts⟩) :
    ∃ x c, o = ⟨.ok x, c :: ts⟩ ∧ c.kind = .symbol .rightParen ∧ .grouping x = e := by
  obtain ⟨r, rest⟩ := o
  cases r with
  | error x => rw [close_error] at h; cases h
  | ok x =>
    cases rest with
    | nil => cases h
    | cons c rest =>
      by_cases hc : c.kind = .symbol .rightParen
      · rw [close_ok_cons x rest hc] at h
        cases h
        exact ⟨x, c, rfl, hc, rfl⟩
      · rw [close_ok_refuse x (by simpa using hc)] at h
        cases h

theorem close_eq_error {o : Outcome} {e : SyntaxError} {ts : List Token}
    (h : o.close = ⟨.error e, ts⟩) : o = ⟨.error e, ts⟩ ∨ ∃ x, o = ⟨.ok x, ts⟩ ∧
      (∀ t ∈ ts.head?, t.kind ≠ .symbol .rightParen) ∧ e = ⟨.expectRightParen, current ts⟩ := by
  obtain ⟨r, rest⟩ := o
  cases r with
  | error x => exact .inl h
  | ok x =>
    cases rest with
    | nil => cases h; exact .inr ⟨x, rfl, by simp, rfl⟩
    | cons c us =>
      by_cases hc : c.kind = .symbol .rightParen
      · rw [close_ok_cons x us hc] at h
        cases h
      · have hhead : ∀ t ∈ (c :: us).head?, t.kind ≠ .symbol .rightParen := by simpa using hc
        rw [close_ok_refuse x hhead] at h
        cases h
        exact .inr ⟨x, rfl, hhead, rfl⟩

end Outcome

end LoxExpr
