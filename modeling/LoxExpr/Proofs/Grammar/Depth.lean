import LoxExpr.Proofs.Grammar.Descent
set_option autoImplicit false

namespace LoxExpr

def Frame.isNested : Frame → Bool
  | expression => true
  | sign _ => true
  | _ => false

structure Counted where
  descent : Descent
  depth : Nat

namespace Counted

def answered (o : Outcome) (k : List Frame) (d : Nat) : Counted :=
  ⟨⟨.answer o.result, k, o.rest⟩, d⟩

def nested (φ : Phrase) (f : Frame) (k : List Frame) (ts : List Token) (d : Nat) : Counted :=
  if maxNesting ≤ d then answered (.refuse .tooMuchNesting ts) k d
  else ⟨⟨.call φ, f :: k, ts⟩, d + 1⟩

def callUnary (k : List Frame) (d : Nat) : List Token → Counted
  | [] => ⟨Descent.callUnary k [], d⟩
  | t :: ts =>
    if t.role = .sign then nested .unary (.sign t) k ts d
    else ⟨Descent.callUnary k (t :: ts), d⟩

/-- The step of the descent, but for the counter and for the limit. -/
def step : Counted → Option Counted
  | ⟨⟨.call .expression, k, ts⟩, d⟩ => some (nested (.level .equality) .expression k ts d)
  | ⟨⟨.call .unary, k, ts⟩, d⟩ => some (callUnary k d ts)
  | ⟨⟨.answer r, f :: k, ts⟩, d⟩ =>
    (Descent.step ⟨.answer r, f :: k, ts⟩).map (⟨·, if f.isNested then d - 1 else d⟩)
  | ⟨s, d⟩ => s.step.map (⟨·, d⟩)

def Reaches : Counted → Counted → Prop := Relation.ReflTransGen fun c c' => c.step = some c'

theorem nested_limit {φ : Phrase} {f : Frame} {k : List Frame} {ts : List Token} {d : Nat}
    (h : maxNesting ≤ d) : nested φ f k ts d = answered (.refuse .tooMuchNesting ts) k d :=
  if_pos h

theorem nested_below {φ : Phrase} {f : Frame} {k : List Frame} {ts : List Token} {d : Nat}
    (h : d < maxNesting) : nested φ f k ts d = ⟨⟨.call φ, f :: k, ts⟩, d + 1⟩ :=
  if_neg (Nat.not_le_of_lt h)

theorem step_sign {t : Token} (k : List Frame) (ts : List Token) (d : Nat) (h : t.role = .sign) :
    step ⟨⟨.call .unary, k, t :: ts⟩, d⟩ = some (nested .unary (.sign t) k ts d) := by
  simp [step, callUnary, h]

theorem step_unary {t : Token} (k : List Frame) (ts : List Token) (d : Nat) (h : t.role ≠ .sign) :
    step ⟨⟨.call .unary, k, t :: ts⟩, d⟩ = some ⟨⟨.call .primary, .unary :: k, t :: ts⟩, d⟩ := by
  simp [step, callUnary, Descent.callUnary, h]

theorem step_primary (k : List Frame) (ts : List Token) (d : Nat) :
    step ⟨⟨.call .primary, k, ts⟩, d⟩ = some ⟨Descent.callPrimary k ts, d⟩ := rfl

theorem step_links (l : Level) (left : Expr) (k : List Frame) (ts : List Token) (d : Nat) :
    step ⟨⟨.call (.links l left), k, ts⟩, d⟩ = some ⟨Descent.callLinks l left k ts, d⟩ := rfl

/-- The rule answers a call that begins at depth `d` as the descent does, which ends at that depth
too. -/
def Counts (p : Rule) (φ : Phrase) (d : Nat) : Prop :=
  ∀ (k : List Frame) (ts : List Token), Reaches ⟨⟨.call φ, k, ts⟩, d⟩ (answered (p.run ts) k d)

theorem reaches_pass {f : Frame} {k : List Frame} (o : Outcome) (d : Nat)
    (hf : ∀ e, Descent.resume e k o.rest f = ⟨.answer (.ok e), k, o.rest⟩)
    (hn : f.isNested = false) : Reaches (answered o (f :: k) d) (answered o k d) := by
  obtain ⟨r, rest⟩ := o
  refine .single ?_
  cases r with
  | error e => simp [answered, step, Descent.step, hn]
  | ok e => simp [answered, step, Descent.step, hn, hf]

theorem counts_chainFrom {l : Level} {p : Rule} {d : Nat} (hp : Counts p l.operand d) (left : Expr)
    (k : List Frame) (ts : List Token) :
    Reaches ⟨⟨.call (.links l left), k, ts⟩, d⟩ (answered (Rule.chainFrom l p left ts) k d) := by
  induction left, ts using Rule.chainFrom.induct l p with
  | case1 left =>
    rw [Rule.chainFrom_nil]
    exact .single rfl
  | case2 left t ts accepts right e he ih =>
    have hrun : p.run ts = ⟨.ok e, right.rest⟩ := by rw [← he]
    have hcall := hp (.right l left t :: k) ts
    rw [hrun] at hcall
    rw [Rule.chainFrom_ok left (Level.accepts_iff_joins.1 accepts) hrun]
    refine .head (step_links l left k (t :: ts) d) ?_
    rw [Descent.callLinks, if_pos accepts]
    exact hcall.trans (.head rfl ih)
  | case3 left t ts accepts right e he =>
    have hrun : p.run ts = ⟨.error e, right.rest⟩ := by rw [← he]
    have hcall := hp (.right l left t :: k) ts
    rw [hrun] at hcall
    rw [Rule.chainFrom_error left (Level.accepts_iff_joins.1 accepts) hrun]
    refine .head (step_links l left k (t :: ts) d) ?_
    rw [Descent.callLinks, if_pos accepts]
    exact hcall.trans (.single rfl)
  | case4 left t ts accepts =>
    rw [Rule.chainFrom_stop p left ts (mt Level.accepts_iff_joins.2 accepts)]
    refine .head (step_links l left k (t :: ts) d) ?_
    rw [Descent.callLinks, if_neg accepts]
    exact .refl

theorem counts_chain {l : Level} {p : Rule} {d : Nat} (hp : Counts p l.operand d) :
    Counts (.chain l p) (.level l) d := by
  intro k ts
  have hcall := hp (.first l :: k) ts
  refine .head rfl ?_
  cases hrun : p.run ts with
  | mk r rest =>
    rw [hrun] at hcall
    cases r with
    | error e =>
      rw [Rule.chain_error hrun]
      exact hcall.trans (.single rfl)
    | ok e =>
      rw [Rule.chain_ok hrun]
      exact hcall.trans (.head rfl (counts_chainFrom hp e k rest))

/-- Inside the nesting of an expression the operands are one deeper than the expression. -/
theorem counts_levels {p : Rule} {d : Nat} (hp : Counts p .unary (d + 1)) (hd : d < maxNesting) :
    Counts (.levels p) .expression d := by
  intro k ts
  have h : Counts (.levels p) (.level .equality) (d + 1) :=
    counts_chain (l := .equality) (counts_chain (l := .comparison) (counts_chain (l := .term)
      (counts_chain (l := .factor) hp)))
  have hcall := h (.expression :: k) ts
  refine .head rfl ?_
  rw [nested_below hd]
  refine hcall.trans ?_
  cases hrun : (Rule.levels p).run ts with
  | mk r rest =>
    cases r with
    | error e => exact .single rfl
    | ok e => exact .single rfl

theorem counts_deny {d : Nat} (hd : maxNesting ≤ d) : Counts .deny .expression d := by
  intro k ts
  refine .head rfl ?_
  rw [nested_limit hd]
  exact .refl

theorem reaches_sign {p : Rule} {d : Nat} (hp : Counts p .unary (d + 1)) (hd : d < maxNesting)
    (t : Token) (k : List Frame) (ts : List Token) : Reaches (nested .unary (.sign t) k ts d)
      (answered ((p.run ts).map (.unary t)) k d) := by
  rw [nested_below hd]
  refine (hp (.sign t :: k) ts).trans ?_
  cases hrun : p.run ts with
  | mk r rest =>
    cases r with
    | error e => exact .single rfl
    | ok e => exact .single rfl

theorem counts_operandOver {p q : Rule} {d : Nat}
    (hp : ∀ t k ts, Reaches (nested .unary (.sign t) k ts d)
      (answered ((p.run ts).map (.unary t)) k d))
    (hq : Counts q .expression d) : Counts (.operandOver p q) .unary d := by
  intro k ts
  have hpass (o : Outcome) : Reaches (answered o (.unary :: k) d) (answered o k d) :=
    reaches_pass o d (fun _ => rfl) rfl
  cases ts with
  | nil => exact .head rfl (.head rfl (hpass (.refuse .expectExpression [])))
  | cons t ts =>
    rw [Rule.operandOver_cons]
    cases hrole : t.role with
    | sign => exact .head (step_sign k ts d hrole) (hp t k ts)
    | opening =>
      refine .head (step_unary k ts d (by simp [hrole])) (.head (step_primary _ _ d) ?_)
      simp only [Descent.callPrimary, hrole]
      refine (hq (.group :: .unary :: k) ts).trans (.trans ?_ (hpass (q.run ts).close))
      cases hrun : q.run ts with
      | mk r rest =>
        cases r with
        | error e => exact .single rfl
        | ok e => exact .single rfl
    | leaf v =>
      refine .head (step_unary k ts d (by simp [hrole])) (.head (step_primary _ _ d) ?_)
      simp only [Descent.callPrimary, hrole]
      exact hpass ⟨.ok (.literal v), ts⟩
    | valueless =>
      refine .head (step_unary k ts d (by simp [hrole])) (.head (step_primary _ _ d) ?_)
      simp only [Descent.callPrimary, hrole]
      exact hpass ⟨.error ⟨.expectLiteralValue, t⟩, ts⟩
    | other =>
      refine .head (step_unary k ts d (by simp [hrole])) (.head (step_primary _ _ d) ?_)
      simp only [Descent.callPrimary, hrole]
      exact hpass (.refuse .expectExpression (t :: ts))

theorem counts_operand {n d : Nat} (h : d + n = maxNesting) : Counts (.operand n) .unary d := by
  induction n generalizing d with
  | zero =>
    -- No nesting is left to the rule exactly when the counter stands at the limit.
    have hd : maxNesting ≤ d := Nat.le_of_eq h.symm
    refine counts_operandOver (fun t k ts => ?_) (counts_deny hd)
    rw [nested_limit hd]
    exact .refl
  | succ n ih =>
    have hd : d < maxNesting := by omega
    have hinside : Counts (.operand n) .unary (d + 1) := ih (by omega)
    exact counts_operandOver (reaches_sign hinside hd) (counts_levels hinside hd)

theorem counts_expression {n d : Nat} (h : d + n = maxNesting) :
    Counts (.expression n) .expression d := by
  cases n with
  | zero => exact counts_deny (Nat.le_of_eq h.symm)
  | succ n => exact counts_levels (counts_operand (by omega)) (by omega)

theorem answered_reaches {o : Outcome} {d : Nat} {c : Counted} (h : Reaches (answered o [] d) c) :
    c = answered o [] d := by
  rcases h.cases_head with heq | ⟨c', hstep, -⟩
  · exact heq.symm
  · cases hstep

theorem Reaches.answered_unique {c : Counted} {o o' : Outcome} {d d' : Nat}
    (h : Reaches c (answered o [] d)) (h' : Reaches c (answered o' [] d')) : o = o' ∧ d = d' := by
  have hsame : answered o [] d = answered o' [] d' := by
    rcases Relation.ReflTransGen.total_of_right_unique
      (fun _ _ _ h₁ h₂ => Option.some.inj (h₁.symm.trans h₂)) h h' with hab | hba
    · exact (answered_reaches hab).symm
    · exact answered_reaches hba
  obtain ⟨r, rest⟩ := o
  obtain ⟨r', rest'⟩ := o'
  cases hsame
  exact ⟨rfl, rfl⟩

end Counted

end LoxExpr
