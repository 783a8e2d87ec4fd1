import LoxExpr.Parser.Session
import LoxExpr.Proofs.Grammar.Depth
import LoxExpr.Proofs.Grammar.Failure
import LoxExpr.Proofs.Parser.Recovery
set_option autoImplicit false

/-!
A parser has no memory but its cursor. Every call is decided by the tokens ahead, takes some of them
and adds reports at the end; a counter of nestings that is kept from call to call is back at zero
after each, and no call passes the end of the tokens.
-/

namespace LoxExpr

def Ended (ts : List Token) : Prop := ∃ t, ts.getLast? = some t ∧ t.kind = .eof

/-- The second list is what is left of the first when some tokens are taken, no end of the text
among them. -/
def Leaves (ts rest : List Token) : Prop := ∃ us, ts = us ++ rest ∧ ∀ t ∈ us, t.kind ≠ .eof

namespace Leaves

theorem refl (ts : List Token) : Leaves ts ts := ⟨[], rfl, by simp⟩

theorem cons {t : Token} {ts rest : List Token} (ht : t.isEof = false) (h : Leaves ts rest) :
    Leaves (t :: ts) rest := by
  obtain ⟨us, rfl, hus⟩ := h
  have hkind : t.kind ≠ .eof := by simpa [Token.isEof] using ht
  exact ⟨t :: us, rfl, by simpa [hkind] using hus⟩

theorem suffix {ts rest : List Token} (h : Leaves ts rest) : rest <:+ ts := by
  obtain ⟨us, rfl, -⟩ := h
  exact List.suffix_append us rest

theorem ended {ts rest : List Token} (h : Leaves ts rest) (hts : Ended ts) : Ended rest := by
  obtain ⟨us, rfl, hus⟩ := h
  obtain ⟨t, hlast, ht⟩ := hts
  rw [List.getLast?_append] at hlast
  cases hrest : rest.getLast? with
  | none =>
    rw [hrest, Option.none_or] at hlast
    exact absurd ht (hus t (List.mem_of_getLast? hlast))
  | some u =>
    rw [hrest, Option.some_or, Option.some.injEq] at hlast
    exact ⟨u, hrest, hlast ▸ ht⟩

end Leaves

theorem Rule.leaves_expression (n : Nat) (ts : List Token) :
    Leaves ts ((expression n).run ts).rest := by
  cases hrun : (expression n).run ts with
  | mk r rest =>
    cases r with
    | error e =>
      obtain ⟨us, hus, hends, -⟩ := blames_expression n ts e rest hrun
      exact ⟨us, hus, hends⟩
    | ok e =>
      obtain ⟨us, hus, hd, -, -⟩ := (reads_expression n ts rest e).1 hrun
      exact ⟨us, hus, hd.kind_ne_eof⟩

theorem leaves_toBoundary (previous : Token) (ts : List Token) :
    Leaves ts (toBoundary previous ts) := by
  induction ts generalizing previous with
  | nil => exact .refl []
  | cons t ts ih =>
    rw [toBoundary]
    split
    · exact .refl _
    · next h =>
      simp only [Bool.or_eq_true, not_or, Bool.not_eq_true] at h
      exact (ih t).cons h.1.1

theorem leaves_recover (ts : List Token) : Leaves ts (recover ts) := by
  cases ts with
  | nil => exact .refl []
  | cons t ts =>
    rw [recover]
    split
    · exact .refl _
    · next h => exact (leaves_toBoundary t ts).cons (by simpa using h)

namespace Parser

theorem ended_closed (ts : List Token) : Ended (closed ts) := by
  obtain ⟨front, t, hts, ht⟩ := closed_last ts
  exact ⟨t, by rw [hts, List.getLast?_concat], ht⟩

theorem parse_of_ok {p : Parser} {e : Expr} (ds : Diagnostics)
    (h : ((Rule.expression maxNesting).run p.ahead).result = .ok e) :
    p.parse ds = (some e, p.moveTo ((Rule.expression maxNesting).run p.ahead).rest, ds) := by
  simp only [parse, parseExpression, h]

theorem parse_of_error {p : Parser} {e : SyntaxError} (ds : Diagnostics)
    (h : ((Rule.expression maxNesting).run p.ahead).result = .error e) :
    p.parse ds = (none, p.moveTo ((Rule.expression maxNesting).run p.ahead).rest,
      ds.report e.diagnostic) := by
  simp only [parse, parseExpression, h]

theorem closed_of_ended {ts : List Token} (h : Ended ts) : closed ts = ts := by
  obtain ⟨t, hlast, ht⟩ := h
  obtain ⟨front, rfl⟩ := List.getLast?_eq_some_iff.1 hlast
  exact closed_append_eof front ht

end Parser

/-- What a call does, in terms of the tokens ahead: its answer, the tokens that are ahead after it
and what it reports. -/
structure Effect where
  answer : Answer
  rest : List Token
  reports : List Diagnostic

def Command.effect (ahead : List Token) : Command → Effect
  | .parse =>
    let o := (Rule.expression maxNesting).run ahead
    match o.result with
    | .ok e => ⟨.tree (some e), o.rest, []⟩
    | .error e => ⟨.tree none, o.rest, [e.diagnostic]⟩
  | .parseExpression =>
    let o := (Rule.expression maxNesting).run ahead
    ⟨.outcome o.result, o.rest, []⟩
  | .synchronize => ⟨.synchronized, recover ahead, []⟩
  | .isAtEnd => ⟨.atEnd (current ahead).isEof, ahead, []⟩

theorem Command.leaves_effect (c : Command) (ahead : List Token) :
    Leaves ahead (c.effect ahead).rest := by
  cases c with
  | parse =>
    have h := Rule.leaves_expression maxNesting ahead
    rw [effect]
    split
    · exact h
    · exact h
  | parseExpression => exact Rule.leaves_expression maxNesting ahead
  | synchronize => exact leaves_recover ahead
  | isAtEnd => exact .refl ahead

theorem Diagnostics.reportAll_nil (ds : Diagnostics) : ds.reportAll [] = ds := by
  rw [reportAll, List.append_nil]

namespace Session

/-- A call moves the cursor and adds reports as its effect on the tokens ahead says. -/
theorem step_eq_effect {s : Session} (c : Command)
    (h : s.parser.position ≤ s.parser.tokens.length) :
    s.step c = ((c.effect s.parser.ahead).answer,
      ⟨s.parser.moveTo (c.effect s.parser.ahead).rest,
        s.diagnostics.reportAll (c.effect s.parser.ahead).reports⟩) := by
  cases c with
  | parse =>
    rw [step, Command.effect]
    cases hresult : ((Rule.expression maxNesting).run s.parser.ahead).result with
    | ok e => simp only [Parser.parse_of_ok _ hresult, Diagnostics.reportAll_nil]
    | error e => simp only [Parser.parse_of_error _ hresult, Diagnostics.report]
  | parseExpression =>
    rw [step, Parser.parseExpression, Command.effect]
    dsimp only
    rw [Diagnostics.reportAll_nil]
  | synchronize =>
    rw [step, Parser.synchronize, Command.effect]
    dsimp only
    rw [Diagnostics.reportAll_nil]
  | isAtEnd =>
    rw [step, Parser.isAtEnd, Command.effect]
    dsimp only
    rw [Diagnostics.reportAll_nil, Parser.moveTo_ahead h]

/-- The session works on the tokens, and its cursor has not passed their end. -/
structure Within (ts : List Token) (s : Session) : Prop where
  tokens_eq : s.parser.tokens = ts
  ended : Ended s.parser.ahead

theorem Within.position_lt {ts : List Token} {s : Session} (h : Within ts s) :
    s.parser.position < ts.length := by
  obtain ⟨t, hlast, -⟩ := h.ended
  have hpos := List.length_pos_of_mem (List.mem_of_getLast? hlast)
  rw [Parser.ahead, List.length_drop, h.tokens_eq] at hpos
  omega

theorem Within.step {ts : List Token} {s : Session} (h : Within ts s) (c : Command) :
    Within ts (s.step c).2 := by
  have hpos := h.position_lt
  rw [← h.tokens_eq] at hpos
  have hleaves := c.leaves_effect s.parser.ahead
  rw [step_eq_effect c (Nat.le_of_lt hpos)]
  refine ⟨h.tokens_eq, ?_⟩
  rw [Parser.ahead_moveTo hleaves.suffix]
  exact hleaves.ended h.ended

theorem Within.after {ts : List Token} {s : Session} (h : Within ts s) (cs : List Command) :
    Within ts (s.after cs) := by
  induction cs generalizing s with
  | nil => exact h
  | cons c cs ih => exact ih (h.step c)

theorem within_ofTokens (ts : List Token) (ds : Diagnostics) :
    Within (Parser.closed ts) ⟨.ofTokens ts, ds⟩ := ⟨rfl, Parser.ended_closed ts⟩

end Session

/-- A session with the counter of nestings, which a parser keeps between the calls. -/
structure CountedSession where
  session : Session
  depth : Nat

namespace CountedSession

/-- One call, made by the descent with the counter and by advancing token by token. -/
inductive Calls : CountedSession → Command → Answer → CountedSession → Prop where
  | parsed {p : Parser} {ds : Diagnostics} {d d' : Nat} {o : Outcome} {e : Expr} :
      Counted.Reaches ⟨.start p.ahead, d⟩ ⟨.finish o, d'⟩ → o.result = .ok e →
      Calls ⟨⟨p, ds⟩, d⟩ .parse (.tree (some e)) ⟨⟨p.moveTo o.rest, ds⟩, d'⟩
  | reported {p : Parser} {ds : Diagnostics} {d d' : Nat} {o : Outcome} {e : SyntaxError} :
      Counted.Reaches ⟨.start p.ahead, d⟩ ⟨.finish o, d'⟩ → o.result = .error e →
      Calls ⟨⟨p, ds⟩, d⟩ .parse (.tree none) ⟨⟨p.moveTo o.rest, ds.report e.diagnostic⟩, d'⟩
  | parseExpression {p : Parser} {ds : Diagnostics} {d d' : Nat} {o : Outcome} :
      Counted.Reaches ⟨.start p.ahead, d⟩ ⟨.finish o, d'⟩ →
      Calls ⟨⟨p, ds⟩, d⟩ .parseExpression (.outcome o.result) ⟨⟨p.moveTo o.rest, ds⟩, d'⟩
  | synchronize {p q : Parser} {ds : Diagnostics} {d : Nat} :
      Parser.Skips p.advance q → Calls ⟨⟨p, ds⟩, d⟩ .synchronize .synchronized ⟨⟨q, ds⟩, d⟩
  | isAtEnd {s : Session} {d : Nat} : Calls ⟨s, d⟩ .isAtEnd (.atEnd s.parser.isAtEnd) ⟨s, d⟩

inductive CallsAll : CountedSession → List Command → List Answer → CountedSession → Prop where
  | nil {s : CountedSession} : CallsAll s [] [] s
  | cons {s t u : CountedSession} {c : Command} {a : Answer} {cs : List Command}
      {as : List Answer} : Calls s c a t → CallsAll t cs as u → CallsAll s (c :: cs) (a :: as) u

theorem reaches_finish_iff {ts : List Token} {o : Outcome} {d : Nat} :
    Counted.Reaches ⟨.start ts, 0⟩ ⟨.finish o, d⟩ ↔
      o = (Rule.expression maxNesting).run ts ∧ d = 0 := by
  have h := Counted.counts_expression (Nat.zero_add maxNesting) [] ts
  constructor
  · intro ho
    exact Counted.Reaches.answered_unique ho h
  · rintro ⟨rfl, rfl⟩
    exact h

theorem calls_iff {s : Session} {c : Command} {a : Answer} {t : CountedSession}
    (h : s.parser.position ≤ s.parser.tokens.length) :
    Calls ⟨s, 0⟩ c a t ↔ (a, t) = ((s.step c).1, ⟨(s.step c).2, 0⟩) := by
  constructor
  · intro hcall
    cases hcall with
    | parsed hrun he =>
      obtain ⟨rfl, rfl⟩ := reaches_finish_iff.1 hrun
      rw [Session.step, Parser.parse_of_ok _ he]
    | reported hrun he =>
      obtain ⟨rfl, rfl⟩ := reaches_finish_iff.1 hrun
      rw [Session.step, Parser.parse_of_error _ he]
    | parseExpression hrun =>
      obtain ⟨rfl, rfl⟩ := reaches_finish_iff.1 hrun
      rfl
    | synchronize hskips =>
      obtain rfl := (Parser.skips_advance_iff h).1 hskips
      rfl
    | isAtEnd => rfl
  · intro heq
    obtain ⟨rfl, rfl⟩ := Prod.mk.inj heq
    have hrun : Counted.Reaches ⟨.start s.parser.ahead, 0⟩
        ⟨.finish ((Rule.expression maxNesting).run s.parser.ahead), 0⟩ :=
      reaches_finish_iff.2 ⟨rfl, rfl⟩
    cases c with
    | parse =>
      rw [Session.step]
      cases hresult : ((Rule.expression maxNesting).run s.parser.ahead).result with
      | ok e => rw [Parser.parse_of_ok _ hresult]; exact .parsed hrun hresult
      | error e => rw [Parser.parse_of_error _ hresult]; exact .reported hrun hresult
    | parseExpression => exact .parseExpression hrun
    | synchronize => exact .synchronize ((Parser.skips_advance_iff h).2 rfl)
    | isAtEnd => exact .isAtEnd

theorem callsAll_iff {ts : List Token} {s : Session} {t : CountedSession} {cs : List Command}
    {as : List Answer} (h : s.Within ts) :
    CallsAll ⟨s, 0⟩ cs as t ↔ as = (s.run cs).map Prod.fst ∧ t = ⟨s.after cs, 0⟩ := by
  induction cs generalizing s as with
  | nil =>
    constructor
    · intro hall
      cases hall
      exact ⟨rfl, rfl⟩
    · rintro ⟨rfl, rfl⟩
      exact .nil
  | cons c cs ih =>
    have hpos := h.position_lt
    rw [← h.tokens_eq] at hpos
    rw [Session.run_cons, List.map_cons]
    constructor
    · intro hall
      cases hall with
      | cons hcall hrest =>
        obtain ⟨rfl, rfl⟩ := Prod.mk.inj ((calls_iff (Nat.le_of_lt hpos)).1 hcall)
        obtain ⟨rfl, ht⟩ := (ih (h.step c)).1 hrest
        exact ⟨rfl, ht⟩
    · rintro ⟨rfl, rfl⟩
      exact .cons ((calls_iff (Nat.le_of_lt hpos)).2 rfl) ((ih (h.step c)).2 ⟨rfl, rfl⟩)

end CountedSession

namespace Session

/-- A call answers as it would on a parser made for the tokens ahead alone, and it moves the cursor
and reports as it would there. -/
theorem Within.step_fresh {ts : List Token} {s : Session} (h : Within ts s) (c : Command)
    (ds : Diagnostics) :
    let fresh : Session := ⟨.ofTokens (ts.drop s.parser.position), ds⟩
    (s.step c).1 = (fresh.step c).1 ∧
      (s.step c).2.parser.position = s.parser.position + (fresh.step c).2.parser.position ∧
      ∃ reports, (s.step c).2.diagnostics = s.diagnostics.reportAll reports ∧
        (fresh.step c).2.diagnostics = ds.reportAll reports := by
  intro fresh
  have hlt := h.position_lt
  have hpos : s.parser.position ≤ s.parser.tokens.length := by rw [h.tokens_eq]; omega
  have htokens : ts.drop s.parser.position = s.parser.ahead := by rw [Parser.ahead, h.tokens_eq]
  -- The tokens from the cursor on end with an end of the text, so a new parser adds none.
  have hahead : fresh.parser.ahead = s.parser.ahead := by
    show Parser.closed (ts.drop s.parser.position) = s.parser.ahead
    rw [htokens, Parser.closed_of_ended h.ended]
  have hlen : s.parser.ahead.length = ts.length - s.parser.position := by
    rw [← htokens, List.length_drop]
  have hfresh : fresh.parser.tokens.length = s.parser.ahead.length := congrArg List.length hahead
  have hrest := (c.leaves_effect s.parser.ahead).suffix.length_le
  rw [step_eq_effect c hpos, step_eq_effect c (Nat.zero_le _), hahead]
  refine ⟨rfl, ?_, (c.effect s.parser.ahead).reports, rfl, rfl⟩
  simp only [Parser.moveTo, h.tokens_eq, hfresh]
  omega

/-- Calls on a parser that keeps the counter answer as those of the session, and leave the counter
at zero; the tokens are what they were, and the next call is the same as on a new parser for the
tokens from the cursor on. -/
theorem after_memoryless (ts : List Token) (ds : Diagnostics) (cs : List Command) :
    let start : Session := ⟨.ofTokens ts, ds⟩
    let s := start.after cs
    (∀ as t, CountedSession.CallsAll ⟨start, 0⟩ cs as t ↔
      as = (start.run cs).map Prod.fst ∧ t = ⟨s, 0⟩) ∧
      s.parser.tokens = Parser.closed ts ∧ s.parser.position < (Parser.closed ts).length ∧
      ∀ (c : Command) (ds' : Diagnostics),
        let fresh : Session := ⟨.ofTokens ((Parser.closed ts).drop s.parser.position), ds'⟩
        start.run (cs ++ [c]) = start.run cs ++ [s.step c] ∧
          (s.step c).1 = (fresh.step c).1 ∧
          (s.step c).2.parser.position = s.parser.position + (fresh.step c).2.parser.position ∧
          ∃ reports, (s.step c).2.diagnostics = s.diagnostics.reportAll reports ∧
            (fresh.step c).2.diagnostics = ds'.reportAll reports := by
  intro start s
  have hstart : Within (Parser.closed ts) start := within_ofTokens ts ds
  have hs : Within (Parser.closed ts) s := hstart.after cs
  refine ⟨fun as t => CountedSession.callsAll_iff hstart, hs.tokens_eq, hs.position_lt, ?_⟩
  intro c ds'
  exact ⟨run_concat start cs c, hs.step_fresh c ds'⟩

end Session

end LoxExpr
