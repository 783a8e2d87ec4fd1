import LoxExpr.Parser
set_option autoImplicit false

namespace LoxExpr.Parser

/-- The token before the cursor; at the start it is the one at the cursor. -/
def previous (p : Parser) : Token := current (p.tokens.drop (p.position - 1))

def advance (p : Parser) : Parser :=
  if p.isAtEnd then p else { p with position := p.position + 1 }

def AtBoundary (p : Parser) : Prop :=
  p.isAtEnd = true ∨ p.previous.kind = .symbol .semicolon ∨
    (current p.ahead).kind.startsStatement = true

inductive Skips : Parser → Parser → Prop where
  | stop {p : Parser} : p.AtBoundary → Skips p p
  | next {p q : Parser} : ¬ p.AtBoundary → Skips p.advance q → Skips p q

theorem Skips.unique {p q q' : Parser} (h : Skips p q) (h' : Skips p q') : q = q' := by
  induction h with
  | stop hp =>
    cases h' with
    | stop _ => rfl
    | next hnot _ => exact absurd hp hnot
  | next hnot _ ih =>
    cases h' with
    | stop hp => exact absurd hp hnot
    | next _ hq => exact ih hq

theorem moveTo_ahead {p : Parser} (h : p.position ≤ p.tokens.length) : p.moveTo p.ahead = p := by
  obtain ⟨tokens, position⟩ := p
  simp only [moveTo, ahead, List.length_drop, mk.injEq, true_and]
  dsimp only at h
  omega

section Advance

variable {p : Parser} {t : Token} {ts : List Token}

theorem isAtEnd_of_ahead (h : p.ahead = t :: ts) : p.isAtEnd = t.isEof := by
  rw [isAtEnd, h, current]

theorem position_lt_of_ahead (h : p.ahead = t :: ts) : p.position < p.tokens.length := by
  have hlen := congrArg List.length h
  simp only [ahead, List.length_drop, List.length_cons] at hlen
  omega

theorem advance_of_ahead (h : p.ahead = t :: ts) (ht : t.isEof = false) :
    p.advance = ⟨p.tokens, p.position + 1⟩ := by
  rw [advance, isAtEnd_of_ahead h, ht]
  rfl

theorem ahead_succ (h : p.ahead = t :: ts) :
    (⟨p.tokens, p.position + 1⟩ : Parser).ahead = ts := by
  rw [ahead] at h ⊢
  rw [← List.drop_drop, h]
  rfl

theorem previous_succ (h : p.ahead = t :: ts) :
    (⟨p.tokens, p.position + 1⟩ : Parser).previous = t := by
  rw [ahead] at h
  rw [previous, Nat.add_sub_cancel, h, current]

theorem atBoundary_iff_of_ahead (h : p.ahead = t :: ts) : p.AtBoundary ↔
    (t.isEof || p.previous.kind == .symbol .semicolon || t.kind.startsStatement) = true := by
  simp only [AtBoundary, isAtEnd_of_ahead h, h, current, Bool.or_eq_true, beq_iff_eq, or_assoc]

end Advance

theorem skips_toBoundary {p : Parser} {ts : List Token} (hp : p.position ≤ p.tokens.length)
    (hts : p.ahead = ts) : Skips p (p.moveTo (toBoundary p.previous ts)) := by
  induction ts generalizing p with
  | nil =>
    have hend : p.AtBoundary := .inl (by rw [isAtEnd, hts]; rfl)
    rw [toBoundary, ← hts, moveTo_ahead hp]
    exact .stop hend
  | cons t ts ih =>
    rw [toBoundary]
    by_cases hb : p.AtBoundary
    · rw [if_pos ((atBoundary_iff_of_ahead hts).1 hb), ← hts, moveTo_ahead hp]
      exact .stop hb
    · rw [if_neg (mt (atBoundary_iff_of_ahead hts).2 hb)]
      have ht : t.isEof = false := by
        have hnot := mt Or.inl hb
        rwa [isAtEnd_of_ahead hts, Bool.not_eq_true] at hnot
      have hlt := position_lt_of_ahead hts
      have hrest := ih (p := ⟨p.tokens, p.position + 1⟩) hlt (ahead_succ hts)
      rw [previous_succ hts] at hrest
      refine .next hb ?_
      rw [advance_of_ahead hts ht]
      exact hrest

theorem skips_advance {p : Parser} (hp : p.position ≤ p.tokens.length) :
    Skips p.advance p.synchronize := by
  have hstay : p.isAtEnd = true → Skips p.advance (p.moveTo p.ahead) := by
    intro hend
    rw [advance, if_pos hend, moveTo_ahead hp]
    exact .stop (.inl hend)
  rw [synchronize]
  cases hts : p.ahead with
  | nil =>
    have hend : p.isAtEnd = true := by rw [isAtEnd, hts]; rfl
    rw [recover, ← hts]
    exact hstay hend
  | cons t ts =>
    rw [recover]
    cases ht : t.isEof with
    | true =>
      rw [if_pos rfl, ← hts]
      exact hstay ((isAtEnd_of_ahead hts).trans ht)
    | false =>
      have hlt := position_lt_of_ahead hts
      have hrest := skips_toBoundary (p := ⟨p.tokens, p.position + 1⟩) hlt (ahead_succ hts)
      rw [previous_succ hts] at hrest
      rw [if_neg Bool.false_ne_true, advance_of_ahead hts ht]
      exact hrest

/-- Recovery advances once and then on to a boundary. -/
theorem skips_advance_iff {p q : Parser} (hp : p.position ≤ p.tokens.length) :
    Skips p.advance q ↔ q = p.synchronize := by
  constructor
  · intro h
    exact h.unique (skips_advance hp)
  · rintro rfl
    exact skips_advance hp

end LoxExpr.Parser
