import LoxExpr.Parser
import LoxExpr.Proofs.Grammar.Acceptance
import LoxExpr.Proofs.Grammar.Descent
set_option autoImplicit false

/-!
Reading without a bound on nesting. The rules call themselves as the bounded ones call those with
one nesting less, and a list cannot open more than it has tokens. The bound changes nothing as long
as it is not reached, and where it is reached reading stops right after the opener that is one too
many.
-/

namespace LoxExpr

namespace Rule

def Agree (m : Nat) (p q : Rule) : Prop := ∀ ts : List Token, ts.length ≤ m → p.run ts = q.run ts

theorem Agree.symm {m : Nat} {p q : Rule} (h : Agree m p q) : Agree m q p :=
  fun ts hts => (h ts hts).symm

theorem Agree.chainFrom {m : Nat} {p q : Rule} (h : Agree m p q) (l : Level) (left : Expr)
    {ts : List Token} (hts : ts.length ≤ m) : chainFrom l p left ts = chainFrom l q left ts := by
  induction left, ts using chainFrom.induct l p with
  | case1 left => rw [chainFrom_nil, chainFrom_nil]
  | case2 left t ts accepts right e he ih =>
    have hop := Level.accepts_iff_joins.1 accepts
    have hlen := p.rest_length_le ts
    rw [List.length_cons] at hts
    have hrun : p.run ts = ⟨.ok e, right.rest⟩ := by rw [← he]
    rw [chainFrom_ok left hop hrun, chainFrom_ok left hop (h ts (by omega) ▸ hrun)]
    exact ih (Nat.le_trans hlen (by omega))
  | case3 left t ts accepts right e he =>
    have hop := Level.accepts_iff_joins.1 accepts
    rw [List.length_cons] at hts
    have hrun : p.run ts = ⟨.error e, right.rest⟩ := by rw [← he]
    rw [chainFrom_error left hop hrun, chainFrom_error left hop (h ts (by omega) ▸ hrun)]
  | case4 left t ts accepts =>
    have hop := mt Level.accepts_iff_joins.2 accepts
    rw [chainFrom_stop p left ts hop, chainFrom_stop q left ts hop]

theorem Agree.chain {m : Nat} {p q : Rule} (h : Agree m p q) (l : Level) :
    Agree m (chain l p) (chain l q) := by
  intro ts hts
  cases hrun : p.run ts with
  | mk r rest =>
    have hq : q.run ts = ⟨r, rest⟩ := h ts hts ▸ hrun
    cases r with
    | error e => rw [chain_error hrun, chain_error hq]
    | ok e =>
      have hlen := p.rest_length_le ts
      rw [hrun] at hlen
      rw [chain_ok hrun, chain_ok hq]
      exact h.chainFrom l e (Nat.le_trans hlen hts)

theorem Agree.levels {m : Nat} {p q : Rule} (h : Agree m p q) : Agree m (levels p) (levels q) :=
  (((h.chain .factor).chain .term).chain .comparison).chain .equality

theorem Agree.operandOver {m : Nat} {p p' q q' : Rule} (hp : Agree m p p') (hq : Agree m q q') :
    Agree (m + 1) (operandOver p q) (operandOver p' q') := by
  intro ts hts
  cases ts with
  | nil => rfl
  | cons t ts =>
    have hlen : ts.length ≤ m := by simpa using hts
    rw [operandOver_cons, operandOver_cons, hp ts hlen, hq ts hlen]

/-- More nestings than tokens make no difference. -/
theorem agree_operand {k n m : Nat} (hn : k ≤ n) (hm : k ≤ m) :
    Agree k (operand n) (operand m) := by
  induction k generalizing n m with
  | zero =>
    intro ts hts
    obtain rfl := List.length_eq_zero_iff.1 (Nat.le_zero.1 hts)
    cases n <;> cases m <;> rfl
  | succ k ih =>
    cases n with
    | zero => omega
    | succ n =>
      cases m with
      | zero => omega
      | succ m =>
        have h := ih (n := n) (m := m) (by omega) (by omega)
        exact h.operandOver h.levels

/-- The operand rule with as many nestings as there are tokens. -/
def uncappedOperand : Rule where
  run ts := (operand ts.length).run ts
  rest_suffix ts := (operand ts.length).rest_suffix ts

def uncapped : Rule := levels uncappedOperand

theorem agree_uncappedOperand (n : Nat) : Agree n uncappedOperand (operand n) :=
  fun ts hts => agree_operand (Nat.le_refl _) hts ts (Nat.le_refl _)

/-- The rules without a bound call only each other. -/
theorem uncappedOperand_run (ts : List Token) :
    uncappedOperand.run ts = (operandOver uncappedOperand uncapped).run ts := by
  have h := agree_uncappedOperand ts.length
  calc
    _ = (operand (ts.length + 1)).run ts := agree_uncappedOperand _ ts (Nat.le_succ _)
    _ = _ := (h.operandOver h.levels).symm ts (Nat.le_succ _)

theorem uncapped_run (ts : List Token) :
    uncapped.run ts = (expression (ts.length + 1)).run ts :=
  (agree_uncappedOperand ts.length).levels ts (Nat.le_refl _)

end Rule

namespace Descent

/-- Steps are made in one way only, so a run that ends has all states on one path. -/
theorem Below.pending_lt {n : Nat} {s s' t : Descent} (h : Below n s s') (hs : s'.step = none)
    (hp : s'.pending < n) (ht : Reaches s t) : t.pending < n := by
  induction h using Relation.ReflTransGen.head_induction_on with
  | refl =>
    rcases ht.cases_head with rfl | ⟨u, hu, -⟩
    · exact hp
    · rw [hs] at hu; cases hu
  | head hstep _ ih =>
    rcases ht.cases_head with rfl | ⟨u, hu, htu⟩
    · exact hstep.1
    · rw [hstep.2] at hu
      cases hu
      exact ih htu

theorem Below.firstOpens {n : Nat} {ts : List Token} {s' : Descent} (h : Below n (start ts) s')
    (hn : 0 < n) (hp : s'.pending = n) : ∃ s, FirstOpens n ts s s' := by
  rcases h.cases_tail with rfl | ⟨s, hs, hlt, hstep⟩
  · exact absurd hp (Nat.ne_of_lt hn)
  · exact ⟨s, hs, hlt, hstep, hp⟩

theorem reaches_uncapped (ts : List Token) :
    Reaches (start ts) (finish (Rule.uncapped.run ts)) := by
  rcases follows_expression (ts.length + 1) [] ts with ⟨-, h⟩ | ⟨s, h, hp, -⟩
  · rw [← Rule.uncapped_run ts] at h
    exact h.reaches
  · have hle := h.reaches.pending_le
    rw [hp] at hle
    simp only [pending, pendings, List.countP_nil] at hle
    omega

theorem finish_reaches {o o' : Outcome} (h : Reaches (finish o) (finish o')) : o = o' := by
  obtain ⟨r, ts⟩ := o
  obtain ⟨r', ts'⟩ := o'
  rcases h.cases_head with heq | ⟨u, hu, -⟩
  · cases heq; rfl
  · cases hu

theorem Reaches.finish_unique {s : Descent} {o o' : Outcome} (h : Reaches s (finish o))
    (h' : Reaches s (finish o')) : o = o' := by
  rcases Relation.ReflTransGen.total_of_right_unique
    (fun _ _ _ h₁ h₂ => Option.some.inj (h₁.symm.trans h₂)) h h' with hab | hba
  · exact finish_reaches hab
  · exact (finish_reaches hba).symm

theorem leads_expression (ts : List Token) :
    Below maxNesting (start ts) (finish ((Rule.expression maxNesting).run ts)) ∨
      ∃ s, Below maxNesting (start ts) s ∧ s.pending = maxNesting ∧
        (Rule.expression maxNesting).run ts = .refuse .tooMuchNesting s.ahead := by
  have h := follows_expression maxNesting [] ts
  rw [show pendings [] + maxNesting = maxNesting from Nat.zero_add _] at h
  exact h.imp_left And.right

theorem FirstOpens.reaches {n : Nat} {ts : List Token} {s s' : Descent}
    (h : FirstOpens n ts s s') : Reaches (start ts) s :=
  h.reached.reaches

theorem FirstOpens.opener {n : Nat} {ts : List Token} {s s' : Descent} (h : FirstOpens n ts s s') :
    ∃ t, s.ahead = t :: s'.ahead ∧ (t.kind.Prefixes ∨ t.kind = .symbol .leftParen) := by
  have hlt := h.below
  have heq := h.pending_eq
  rcases step_pending h.step_eq with ⟨t, ht, hrole | hrole, -⟩ | ⟨hle, -⟩
  · exact ⟨t, ht, .inl (Token.role_eq_sign_iff.1 hrole)⟩
  · exact ⟨t, ht, .inr (Token.role_eq_opening_iff.1 hrole)⟩
  · omega

end Descent

namespace Parser

theorem token_after_opener {ts front rest : List Token} {opener : Token}
    (h : closed ts = front ++ opener :: rest)
    (ho : opener.kind.Prefixes ∨ opener.kind = .symbol .leftParen) :
    ∃ t us, rest = t :: us := by
  cases rest with
  | cons t us => exact ⟨t, us, rfl⟩
  | nil =>
    obtain ⟨whole, t, hw, ht⟩ := closed_last ts
    obtain rfl : t = opener := by simpa using (List.append_inj' (hw.symm.trans h) rfl).2
    rcases ho with ho | ho
    · rw [ht] at ho; cases ho
    · rw [ht] at ho; cases ho

/-- Reading with the cap on nesting is reading without it, step by step, unless so many openers are
pending at once; then it fails at the token after the opener that is the first to make them so
many. -/
theorem parseExpression_eq_uncapped (ts : List Token) :
    (∀ us, Rule.uncappedOperand.run us =
      (Rule.operandOver Rule.uncappedOperand (Rule.levels Rule.uncappedOperand)).run us) ∧
    Descent.Reaches (.start (closed ts)) (.finish (Rule.uncapped.run (closed ts))) ∧
    ((∀ s, Descent.Reaches (.start (closed ts)) s → s.pending < maxNesting) →
      (ofTokens ts).parseExpression = ((Rule.uncapped.run (closed ts)).result,
        (ofTokens ts).moveTo (Rule.uncapped.run (closed ts)).rest)) ∧
    (¬ (∀ s, Descent.Reaches (.start (closed ts)) s → s.pending < maxNesting) →
      ∃ s s' front opener t rest reason, Descent.FirstOpens maxNesting (closed ts) s s' ∧
        (opener.kind.Prefixes ∨ opener.kind = .symbol .leftParen) ∧
        s.ahead = opener :: t :: rest ∧ s'.ahead = t :: rest ∧
        closed ts = front ++ opener :: t :: rest ∧
        (ofTokens ts).parseExpression = (.error ⟨reason, t⟩, ⟨closed ts, front.length + 1⟩) ∧
        reason.message = "Too much nesting.") := by
  have hfinish := Descent.reaches_uncapped (closed ts)
  refine ⟨Rule.uncappedOperand_run, hfinish, ?_, ?_⟩
  · intro hlt
    rcases Descent.leads_expression (closed ts) with h | ⟨s, h, hp, -⟩
    · rw [parseExpression, ahead_ofTokens, h.reaches.finish_unique hfinish]
    · exact absurd hp (Nat.ne_of_lt (hlt s h.reaches))
  · intro hnot
    rcases Descent.leads_expression (closed ts) with h | ⟨s', h, hp, ho⟩
    · exact absurd (fun s => h.pending_lt rfl (show 0 < maxNesting by decide)) hnot
    · obtain ⟨s, hfirst⟩ := h.firstOpens (by decide) hp
      obtain ⟨opener, hs, hopener⟩ := hfirst.opener
      obtain ⟨front, hfront⟩ := hfirst.reaches.suffix
      have hwhole : closed ts = front ++ opener :: s'.ahead := by rw [← hs]; exact hfront.symm
      obtain ⟨t, rest, hrest⟩ := token_after_opener hwhole hopener
      rw [hrest] at hs hwhole ho
      refine ⟨s, s', front, opener, t, rest, .tooMuchNesting, hfirst, hopener, hs, hrest, hwhole,
        ?_, rfl⟩
      rw [parseExpression, ahead_ofTokens, ho, moveTo_ofTokens]
      simp only [Outcome.refuse, current, Prod.mk.injEq, true_and, mk.injEq]
      rw [hwhole]
      simp only [List.length_append, List.length_cons]
      omega

end Parser

end LoxExpr
