import Mathlib.Control.Monad.Basic
import LoxExpr.Proofs.Grammar.Failure
set_option autoImplicit false

namespace LoxExpr.Parser

/-- Some list that begins with the tokens is read, and all of them are taken. -/
def Completable (us : List Token) : Prop :=
  ∃ vs e n, (ofTokens (us ++ vs)).parseExpression = (.ok e, ⟨closed (us ++ vs), n⟩) ∧
    us.length ≤ n

def Hopeless (us : List Token) : Prop :=
  ∀ vs e, (ofTokens (us ++ vs)).parseExpression.1 ≠ .ok e

/-- What an error after the tokens `us` and before the token `t` says of them. -/
inductive Cause (us : List Token) (t : Token) (e : SyntaxError) : Prop where
  | unusable :
      e.reason.message = "Expect expression." ∨
        e.reason.message = "Expect ')' after expression." →
      e.token = t → Completable us → Cause us t e
  | tooDeep : e.reason.message = "Too much nesting." → e.token = t → Hopeless us → Cause us t e
  | valueless {front : List Token} : e.reason.message = "Expect literal value." →
      us = front ++ [e.token] → e.token.kind = .number ∨ e.token.kind = .string →
      e.token.literal = none → Completable front → Hopeless us → Cause us t e

theorem completable_of_viable {us : List Token} (h : Phrase.expression.Viable maxNesting us) :
    Completable us := by
  obtain ⟨vs, e, hd, hn⟩ := h
  have hlen : us.length ≤ (us ++ vs).length := (List.prefix_append us vs).length_le
  have hparse := parseExpression_of_derives hd hn 1
  rw [List.append_assoc] at hparse
  refine ⟨vs ++ [.eof 1], e, (us ++ vs).length, ?_, hlen⟩
  exact hparse

theorem hopeless_of_run {us : List Token}
    (h : ∀ vs, ∃ x rest, (Rule.expression maxNesting).run (us ++ vs) = ⟨.error x, rest⟩) :
    Hopeless us := by
  intro vs e heq
  obtain ⟨ws, hclosed⟩ := prefix_closed (us ++ vs)
  rw [List.append_assoc] at hclosed
  obtain ⟨x, rest, hrun⟩ := h (vs ++ ws)
  rw [parseExpression, ahead_ofTokens, ← hclosed, hrun] at heq
  cases heq

theorem cause_of_failure {us rest : List Token} {t : Token} {e : SyntaxError}
    (h : Failure (Rule.expression maxNesting).run .expression maxNesting e us (t :: rest)) :
    Cause us t e := by
  cases h with
  | unusable hreason hv _ =>
    refine .unusable ?_ rfl (completable_of_viable hv)
    rcases hreason with rfl | rfl
    · exact .inl rfl
    · exact .inr rfl
  | tooDeep hsame => exact .tooDeep rfl rfl (hopeless_of_run fun vs => ⟨_, _, hsame vs⟩)
  | @valueless front _ u hu hv hsame =>
    obtain ⟨hkind, hliteral⟩ := Token.role_eq_valueless_iff.1 hu
    refine .valueless rfl rfl hkind hliteral (completable_of_viable hv)
      (hopeless_of_run fun vs => ⟨⟨.expectLiteralValue, u⟩, vs, ?_⟩)
    rw [List.append_assoc]
    exact hsame vs

/-- An error is found after tokens `us`, before a token `t`: it is the same whatever follows `t`,
and it has its cause in the tokens taken and in `t`. -/
theorem parseExpression_error_earliest {ts : List Token} {e : SyntaxError} {p : Parser}
    (h : (ofTokens ts).parseExpression = (.error e, p)) :
    ∃ us t rest, closed ts = us ++ t :: rest ∧ p = ⟨closed ts, us.length⟩ ∧
      (∀ vs, (ofTokens (us ++ t :: vs)).parseExpression =
        (.error e, ⟨closed (us ++ t :: vs), us.length⟩)) ∧
      Cause us t e := by
  obtain ⟨hresult, hparser⟩ := Prod.mk.inj h
  cases hrun : (Rule.expression maxNesting).run (closed ts) with
  | mk r rest =>
    rw [ahead_ofTokens, hrun] at hresult hparser
    dsimp only at hresult hparser
    obtain ⟨us, hcut, hus, hfail⟩ :=
      Rule.blames_expression maxNesting _ e rest (by rw [hrun, hresult])
    cases rest with
    | nil =>
      obtain ⟨front, t, hlast, ht⟩ := closed_last ts
      rw [List.append_nil] at hcut
      exact absurd ht (hus t (by simp [← hcut, hlast]))
    | cons t rest =>
      refine ⟨us, t, rest, hcut, ?_, fun vs => ?_, cause_of_failure hfail⟩
      · have hparse := parseExpression_of_run hrun hcut
        rw [h] at hparse
        exact (Prod.mk.inj hparse).2
      · obtain ⟨ws, hclosed⟩ := prefix_closed (us ++ t :: vs)
        rw [List.append_assoc, List.cons_append] at hclosed
        refine parseExpression_of_run ?_ hclosed.symm
        rw [← hclosed]
        exact hfail.run_append rfl

def halfDone : List Token :=
  let op (s : Symbol) (line : Nat) : Token := ⟨.symbol s, s.text, none, line⟩
  [op .minus 1, op .leftParen 1, ⟨.keyword .«nil», "nil", none, 2⟩, op .star 2, op .rightParen 3]

def halfDoneError : SyntaxError := ⟨.expectExpression, ⟨.symbol .rightParen, ")", none, 3⟩⟩

theorem parseExpression_error_earliest_halfDone :
    (ofTokens halfDone).parseExpression = (.error halfDoneError, ⟨closed halfDone, 4⟩) ∧
      ∃ us t rest, closed halfDone = us ++ t :: rest ∧
        (⟨closed halfDone, 4⟩ : Parser) = ⟨closed halfDone, us.length⟩ ∧
        (∀ vs, (ofTokens (us ++ t :: vs)).parseExpression =
          (.error halfDoneError, ⟨closed (us ++ t :: vs), us.length⟩)) ∧
        Cause us t halfDoneError := by
  have h : (ofTokens halfDone).parseExpression =
      (.error halfDoneError, ⟨closed halfDone, 4⟩) := by decide +kernel
  exact ⟨h, parseExpression_error_earliest h⟩

end LoxExpr.Parser
