import Mathlib.Order.Bounds.Defs
import LoxExpr.Proofs.Parser.Barrier
set_option autoImplicit false

namespace LoxExpr

/-- At this place of the tokens the text ends, a statement has just ended or a statement begins. -/
def BoundaryAt (ts : List Token) (q : Nat) : Prop :=
  ∃ previous t, ts[q - 1]? = some previous ∧ ts[q]? = some t ∧
    (t.kind = .eof ∨ previous.kind = .symbol .semicolon ∨
      ∃ k : Keyword, t.kind = .keyword k ∧
        k ∈ [.«class», .«fun», .«var», .«for», .«if», .«while», .«print», .«return»])

theorem Kind.startsStatement_iff {kind : Kind} : kind.startsStatement = true ↔
    ∃ k : Keyword, kind = .keyword k ∧
      k ∈ [.«class», .«fun», .«var», .«for», .«if», .«while», .«print», .«return»] := by
  cases kind with
  | keyword k => cases k <;> simp [startsStatement]
  | _ => simp [startsStatement]

theorem Derives.ne_nil {φ : Phrase} {ts : List Token} {e : Expr} (h : Derives φ ts e)
    (hφ : ∀ l left, φ ≠ .links l left) : ts ≠ [] := by
  induction h with
  | expression _ ih => exact ih (by simp)
  | @level l _ _ _ _ _ _ ih _ =>
    have hfirst := ih (by cases l <;> simp [Level.operand])
    simp [hfirst]
  | done => exact absurd rfl (hφ _ _)
  | link => simp
  | unary => simp
  | primary _ ih => exact ih (by simp)
  | leaf => simp
  | group => simp

theorem current_drop {ts : List Token} {q : Nat} {t : Token} (h : ts[q]? = some t) :
    current (ts.drop q) = t := by
  obtain ⟨hq, rfl⟩ := List.getElem?_eq_some_iff.1 h
  rw [List.drop_eq_getElem_cons hq, current]

namespace Parser

theorem position_moveTo {p : Parser} {us rest : List Token}
    (hp : p.position ≤ p.tokens.length) (h : p.ahead = us ++ rest) :
    (p.moveTo rest).position = p.position + us.length := by
  have hlen := congrArg List.length h
  simp only [ahead, List.length_drop, List.length_append] at hlen
  simp only [moveTo]
  omega

theorem isAtEnd_iff {p : Parser} {t : Token} (h : p.tokens[p.position]? = some t) :
    p.isAtEnd = true ↔ t.kind = .eof := by
  rw [isAtEnd, ahead, current_drop h, Token.isEof, beq_iff_eq]

theorem position_lt_parseExpression {p q : Parser} {e : Expr}
    (hp : p.position ≤ p.tokens.length) (h : p.parseExpression = (.ok e, q)) :
    p.position < q.position := by
  obtain ⟨hresult, rfl⟩ := Prod.mk.inj h
  have hrun := (Rule.reads_expression maxNesting p.ahead _ e).1 (by rw [← hresult])
  obtain ⟨us, hus, hd, -, -⟩ := hrun
  have hpos := List.length_pos_iff.2 (hd.ne_nil (by simp))
  rw [position_moveTo hp hus]
  omega

theorem position_le_parseExpression {p q : Parser} {e : SyntaxError}
    (hp : p.position ≤ p.tokens.length) (h : p.parseExpression = (.error e, q)) :
    p.position ≤ q.position := by
  obtain ⟨-, rfl⟩ := Prod.mk.inj h
  obtain ⟨us, hus, -⟩ := Rule.leaves_expression maxNesting p.ahead
  rw [position_moveTo hp hus]
  omega

theorem atBoundary_iff {ts : List Token} {q : Nat} (h : q < ts.length) :
    (⟨ts, q⟩ : Parser).AtBoundary ↔ BoundaryAt ts q := by
  have ht : ts[q]? = some ts[q] := List.getElem?_eq_getElem h
  have hprevious : ts[q - 1]? = some ts[q - 1] := List.getElem?_eq_getElem (by omega)
  simp only [AtBoundary, BoundaryAt, isAtEnd, previous, ahead, current_drop ht,
    current_drop hprevious, ht, hprevious, Kind.startsStatement_iff, Token.isEof, beq_iff_eq,
    Option.some.injEq, exists_and_left, exists_eq_left']

/-- Skipping passes over no boundary. -/
theorem Skips.least {p q : Parser} (h : Skips p q) : q.tokens = p.tokens ∧ q.AtBoundary ∧
    p.position ≤ q.position ∧
      ∀ r, p.position ≤ r → r < q.position → ¬ (⟨p.tokens, r⟩ : Parser).AtBoundary := by
  induction h with
  | stop hp => exact ⟨rfl, hp, Nat.le_refl _, fun r hle hlt => by omega⟩
  | @next p q hnot _ ih =>
    have hend : ¬ p.isAtEnd = true := fun hend => hnot (.inl hend)
    simp only [advance, if_neg hend] at ih
    obtain ⟨htokens, hq, hle, hbetween⟩ := ih
    refine ⟨htokens, hq, by omega, fun r hr hlt => ?_⟩
    by_cases hfirst : r = p.position
    · rw [hfirst]
      exact hnot
    · exact hbetween r (by omega) hlt

theorem synchronize_of_isAtEnd {p : Parser} (hp : p.position ≤ p.tokens.length)
    (h : p.isAtEnd = true) : p.synchronize = p := by
  have hskips := skips_advance hp
  rw [advance, if_pos h] at hskips
  exact hskips.unique (.stop (.inl h))

theorem isLeast_synchronize {p : Parser} (hp : p.position ≤ p.tokens.length)
    (hlt : p.synchronize.position < p.tokens.length) (h : ¬ p.isAtEnd = true) :
    IsLeast {q | p.position < q ∧ BoundaryAt p.tokens q} p.synchronize.position := by
  obtain ⟨htokens, hq, hle, hbetween⟩ := (skips_advance hp).least
  simp only [advance, if_neg h] at htokens hle hbetween
  constructor
  · have hq' : (⟨p.tokens, p.synchronize.position⟩ : Parser).AtBoundary := by rwa [← htokens]
    exact ⟨hle, (atBoundary_iff hlt).1 hq'⟩
  · rintro r ⟨hr, hboundary⟩
    refine Nat.not_lt.1 fun hbefore => hbetween r hr hbefore ?_
    exact (atBoundary_iff (by omega)).2 hboundary

/-- Reading expressions up to the end of the text, with recovery after each error, takes so many
rounds and leaves the parser so. -/
inductive Recovers : Parser → Nat → Parser → Prop where
  | ended {p : Parser} : p.isAtEnd = true → Recovers p 0 p
  | read {p q r : Parser} {n : Nat} {e : Expr} : p.isAtEnd = false →
      p.parseExpression = (.ok e, q) → Recovers q n r → Recovers p (n + 1) r
  | failed {p q r : Parser} {n : Nat} {e : SyntaxError} : p.isAtEnd = false →
      p.parseExpression = (.error e, q) → Recovers q.synchronize n r → Recovers p (n + 1) r

theorem Recovers.unique {p r r' : Parser} {n n' : Nat} (h : Recovers p n r)
    (h' : Recovers p n' r') : n = n' ∧ r = r' := by
  induction h generalizing n' with
  | ended hp =>
    cases h' with
    | ended _ => exact ⟨rfl, rfl⟩
    | read hp' _ _ => simp [hp] at hp'
    | failed hp' _ _ => simp [hp] at hp'
  | read hp hrun _ ih =>
    cases h' with
    | ended hp' => simp [hp] at hp'
    | read _ hrun' hrest =>
      obtain ⟨-, rfl⟩ := Prod.mk.inj (hrun.symm.trans hrun')
      obtain ⟨rfl, rfl⟩ := ih hrest
      exact ⟨rfl, rfl⟩
    | failed _ hrun' _ => cases hrun.symm.trans hrun'
  | failed hp hrun _ ih =>
    cases h' with
    | ended hp' => simp [hp] at hp'
    | read _ hrun' _ => cases hrun.symm.trans hrun'
    | failed _ hrun' hrest =>
      obtain ⟨-, rfl⟩ := Prod.mk.inj (hrun.symm.trans hrun')
      obtain ⟨rfl, rfl⟩ := ih hrest
      exact ⟨rfl, rfl⟩

end Parser

namespace Session.Before

variable {front behind : List Token} {t : Token} {s : Session}

theorem after (h : Before front t behind s) (cs : List Command) :
    Before front t behind (s.after cs) := by
  induction cs generalizing s with
  | nil => exact h
  | cons c cs ih => exact ih (h.step c).1

theorem isAtEnd_iff (h : Before front t behind s) (hfront : ∀ u ∈ front, u.kind ≠ .eof) :
    s.parser.isAtEnd = true ↔ s.parser.position = front.length := by
  have hle := h.position_le
  have hahead := h.ahead_eq
  constructor
  · intro hend
    refine Nat.le_antisymm hle (Nat.not_lt.1 fun hlt => ?_)
    rw [List.drop_eq_getElem_cons hlt, List.cons_append] at hahead
    rw [Parser.isAtEnd_of_ahead hahead] at hend
    exact hfront _ (List.getElem_mem hlt) (by simpa [Token.isEof] using hend)
  · intro hpos
    rw [hpos, List.drop_length, List.nil_append] at hahead
    rw [Parser.isAtEnd_of_ahead hahead, Token.isEof, h.eof]
    rfl

theorem exists_round (h : Before front t behind s) (hfront : ∀ u ∈ front, u.kind ≠ .eof)
    (hend : s.parser.isAtEnd = false) :
    ∃ s' : Session, Before front t behind s' ∧ s.parser.position < s'.parser.position ∧
      ∀ n r, Parser.Recovers s'.parser n r → Parser.Recovers s.parser (n + 1) r := by
  have hread := (h.step .parseExpression).1
  cases hrun : s.parser.parseExpression with
  | mk result q =>
    simp only [Session.step, hrun] at hread
    cases result with
    | ok e =>
      have hlt := Parser.position_lt_parseExpression h.position_le_tokens hrun
      exact ⟨_, hread, hlt, fun n r hrest => .read hend hrun hrest⟩
    | error e =>
      have hle := Parser.position_le_parseExpression h.position_le_tokens hrun
      have hsync : Before front t behind ⟨q.synchronize, s.diagnostics⟩ :=
        (hread.step .synchronize).1
      refine ⟨_, hsync, ?_, fun n r hrest => .failed hend hrun hrest⟩
      -- Recovery moves the cursor itself, but for an error at the end, which lies behind the start.
      by_cases hq : q.isAtEnd = true
      · have hlast := (hread.isAtEnd_iff hfront).1 hq
        have hfirst := mt (h.isAtEnd_iff hfront).2 (Bool.eq_false_iff.1 hend)
        rw [Parser.synchronize_of_isAtEnd hread.position_le_tokens hq]
        dsimp only at hlast ⊢
        omega
      · have hskips := (Parser.skips_advance hread.position_le_tokens).least.2.2.1
        rw [Parser.advance, if_neg hq] at hskips
        exact Nat.lt_of_le_of_lt hle hskips

/-- Every round moves the cursor towards the first end of the text, so the rounds are at most as
many as the tokens before it. -/
theorem exists_recovers (h : Before front t behind s) (hfront : ∀ u ∈ front, u.kind ≠ .eof) :
    ∃ n, n ≤ front.length - s.parser.position ∧
      Parser.Recovers s.parser n ⟨front ++ t :: behind, front.length⟩ := by
  generalize hleft : front.length - s.parser.position = left
  induction left using Nat.strongRecOn generalizing s with
  | ind left ih =>
    cases hend : s.parser.isAtEnd with
    | true =>
      have hpos := (h.isAtEnd_iff hfront).1 hend
      have hparser : s.parser = ⟨front ++ t :: behind, front.length⟩ := by
        rw [← h.tokens_eq, ← hpos]
      exact ⟨0, Nat.zero_le _, hparser ▸ .ended hend⟩
    | false =>
      obtain ⟨s', hs', hlt, hround⟩ := h.exists_round hfront hend
      have hle := hs'.position_le
      obtain ⟨n, hn, hrest⟩ := ih _ (by omega) hs' rfl
      exact ⟨n + 1, by omega, hround n _ hrest⟩

/-- Recovery stays at an end of the text, and else it moves to the first boundary. -/
theorem synchronize_stops (h : Before front t behind s) :
    ∃ u, s.parser.tokens[s.parser.position]? = some u ∧
      (u.kind = .eof → s.parser.synchronize = s.parser) ∧
      (u.kind ≠ .eof → s.parser.synchronize.tokens = s.parser.tokens ∧
        IsLeast {q | s.parser.position < q ∧ BoundaryAt s.parser.tokens q}
          s.parser.synchronize.position) := by
  have hpos := h.position_le_tokens
  have hlt : s.parser.position < s.parser.tokens.length := h.looks_within.1
  have hat := List.getElem?_eq_getElem hlt
  have hend := Parser.isAtEnd_iff hat
  have hnext : Before front t behind (s.step .synchronize).2 := (h.step .synchronize).1
  refine ⟨_, hat, fun hu => Parser.synchronize_of_isAtEnd hpos (hend.2 hu), fun hu => ⟨rfl, ?_⟩⟩
  exact Parser.isLeast_synchronize hpos hnext.looks_within.1 (mt hend.1 hu)

end Session.Before

/-- Wherever calls have left the cursor, reading moves it on unless there is an error, and recovery
moves it to the first boundary behind it, or nowhere at the end of the text. Rounds of the two come
to the first end of the text, and no more of them are made than tokens stand before it. -/
theorem Session.recovery_progress (ts : List Token) (ds : Diagnostics) (cs : List Command) :
    let p := ((⟨.ofTokens ts, ds⟩ : Session).after cs).parser
    ∃ front last behind, Parser.closed ts = front ++ last :: behind ∧ last.kind = .eof ∧
      (∀ u ∈ front, u.kind ≠ .eof) ∧ p.tokens = Parser.closed ts ∧
      (∀ e q, p.parseExpression = (.ok e, q) →
        q.tokens = Parser.closed ts ∧ p.position < q.position) ∧
      (∀ e q, p.parseExpression = (.error e, q) →
        q.tokens = Parser.closed ts ∧ p.position ≤ q.position) ∧
      (∃ t, (Parser.closed ts)[p.position]? = some t ∧
        (t.kind = .eof → p.synchronize = p) ∧
        (t.kind ≠ .eof → p.synchronize.tokens = Parser.closed ts ∧
          IsLeast {q | p.position < q ∧ BoundaryAt (Parser.closed ts) q}
            p.synchronize.position)) ∧
      ∃ n, n ≤ front.length - p.position ∧
        ∀ m r, p.Recovers m r ↔ m = n ∧ r = ⟨Parser.closed ts, front.length⟩ := by
  intro p
  let s := (⟨.ofTokens ts, ds⟩ : Session).after cs
  obtain ⟨front, last, behind, hcut, hlast, hfront⟩ := Parser.closed_first_eof ts
  have hs : Before front last behind s := Before.after ⟨hcut, hlast, Nat.zero_le _⟩ cs
  have hpos : p.position ≤ p.tokens.length := hs.position_le_tokens
  have htokens : p.tokens = Parser.closed ts := hs.tokens_eq.trans hcut.symm
  obtain ⟨n, hn, hrecovers⟩ := hs.exists_recovers hfront
  refine ⟨front, last, behind, hcut, hlast, hfront, htokens, fun e q hrun => ?_,
    fun e q hrun => ?_, ?_, n, hn, fun m r => ?_⟩
  · refine ⟨?_, Parser.position_lt_parseExpression hpos hrun⟩
    obtain ⟨-, rfl⟩ := Prod.mk.inj hrun
    exact htokens
  · refine ⟨?_, Parser.position_le_parseExpression hpos hrun⟩
    obtain ⟨-, rfl⟩ := Prod.mk.inj hrun
    exact htokens
  · rw [← htokens]
    exact hs.synchronize_stops
  · rw [← hcut] at hrecovers
    constructor
    · intro h
      obtain ⟨rfl, rfl⟩ := h.unique hrecovers
      exact ⟨rfl, rfl⟩
    · rintro ⟨rfl, rfl⟩
      exact hrecovers

end LoxExpr
