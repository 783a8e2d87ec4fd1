import LoxExpr.Proofs.Grammar.Origin
import LoxExpr.Proofs.Parser.Moments
set_option autoImplicit false

namespace LoxExpr

theorem toBoundary_barrier (previous : Token) (front : List Token) {t : Token}
    (ht : t.kind = .eof) : ∃ left, left <:+ front ∧
      ∀ behind, toBoundary previous (front ++ t :: behind) = left ++ t :: behind := by
  induction front generalizing previous with
  | nil =>
    have hend : t.isEof = true := by simp [Token.isEof, ht]
    exact ⟨[], List.suffix_refl [], fun behind => by simp [toBoundary, hend]⟩
  | cons u front ih =>
    by_cases hstop :
        (u.isEof || previous.kind == .symbol .semicolon || u.kind.startsStatement) = true
    · refine ⟨u :: front, List.suffix_refl _, fun behind => ?_⟩
      rw [List.cons_append, toBoundary, if_pos hstop]
    · obtain ⟨left, hleft, hsame⟩ := ih u
      refine ⟨left, hleft.trans (List.suffix_cons u front), fun behind => ?_⟩
      rw [List.cons_append, toBoundary, if_neg hstop, hsame]

theorem recover_barrier (front : List Token) {t : Token} (ht : t.kind = .eof) :
    ∃ left, left <:+ front ∧
      ∀ behind, recover (front ++ t :: behind) = left ++ t :: behind := by
  cases front with
  | nil =>
    have hend : t.isEof = true := by simp [Token.isEof, ht]
    exact ⟨[], List.suffix_refl [], fun behind => by simp [recover, hend]⟩
  | cons u front =>
    by_cases hend : u.isEof = true
    · refine ⟨u :: front, List.suffix_refl _, fun behind => ?_⟩
      rw [List.cons_append, recover, if_pos hend]
    · obtain ⟨left, hleft, hsame⟩ := toBoundary_barrier u front ht
      refine ⟨left, hleft.trans (List.suffix_cons u front), fun behind => ?_⟩
      rw [List.cons_append, recover, if_neg hend, hsame]

def Answer.From (ts : List Token) : Answer → Prop
  | .tree none => True
  | .tree (some e) => e.MadeOf ts
  | .outcome r => ResultFrom ts r
  | .synchronized => True
  | .atEnd _ => True

def ReportsFrom (ts : List Token) (reports : List Diagnostic) : Prop :=
  ∀ d ∈ reports, ∃ e : SyntaxError, d = e.diagnostic ∧ e.token ∈ ts

theorem Answer.From.mono {ts us : List Token} {a : Answer} (h : a.From ts) (hsub : ts ⊆ us) :
    a.From us := by
  cases a with
  | tree expr =>
    cases expr with
    | none => trivial
    | some e => exact Expr.MadeOf.mono h hsub
  | outcome r => exact ResultFrom.mono h hsub
  | synchronized => trivial
  | atEnd _ => trivial

theorem ReportsFrom.mono {ts us : List Token} {reports : List Diagnostic}
    (h : ReportsFrom ts reports) (hsub : ts ⊆ us) : ReportsFrom us reports := by
  intro d hd
  obtain ⟨e, rfl, he⟩ := h d hd
  exact ⟨e, rfl, hsub he⟩

theorem Command.effect_barrier (c : Command) (front : List Token) {t : Token}
    (ht : t.kind = .eof) : ∃ answer reports left, left <:+ front ∧
      answer.From (front ++ [t]) ∧ ReportsFrom (front ++ [t]) reports ∧
      ∀ behind, c.effect (front ++ t :: behind) = ⟨answer, left ++ t :: behind, reports⟩ := by
  have hnone : ReportsFrom (front ++ [t]) [] := by intro d hd; cases hd
  obtain ⟨r, left, hleft, hfrom, hrun⟩ := Rule.expression_barrier maxNesting front ht
  cases c with
  | parse =>
    cases r with
    | ok e =>
      exact ⟨.tree (some e), [], left, hleft, hfrom, hnone, fun behind => by
        simp only [effect, hrun]⟩
    | error e =>
      refine ⟨.tree none, [e.diagnostic], left, hleft, trivial, ?_, fun behind => ?_⟩
      · intro d hd
        obtain rfl := List.mem_singleton.1 hd
        exact ⟨e, rfl, hfrom⟩
      · simp only [effect, hrun]
  | parseExpression =>
    exact ⟨.outcome r, [], left, hleft, hfrom, hnone, fun behind => by rw [effect, hrun]⟩
  | synchronize =>
    obtain ⟨left, hleft, hsame⟩ := recover_barrier front ht
    exact ⟨.synchronized, [], left, hleft, trivial, hnone, fun behind => by rw [effect, hsame]⟩
  | isAtEnd =>
    refine ⟨.atEnd (current (front ++ [t])).isEof, [], front, List.suffix_refl front, trivial,
      hnone, fun behind => ?_⟩
    rw [effect, current_congr (head?_append_cons front behind [] t)]

namespace Session

def onTokens (ts : List Token) (s : Session) : Session := { s with parser.tokens := ts }

/-- The session works on tokens of which `t` is the first end of the text, and its cursor has not
passed it. -/
structure Before (front : List Token) (t : Token) (behind : List Token) (s : Session) : Prop where
  tokens_eq : s.parser.tokens = front ++ t :: behind
  eof : t.kind = .eof
  position_le : s.parser.position ≤ front.length

namespace Before

variable {front behind : List Token} {t : Token} {s : Session}

theorem ahead_eq (h : Before front t behind s) :
    s.parser.ahead = front.drop s.parser.position ++ t :: behind := by
  rw [Parser.ahead, h.tokens_eq, List.drop_append_of_le_length h.position_le]

theorem onTokens_cut (h : Before front t behind s) :
    Before front t [] (s.onTokens (front ++ [t])) := ⟨rfl, h.eof, h.position_le⟩

theorem position_le_tokens (h : Before front t behind s) :
    s.parser.position ≤ s.parser.tokens.length := by
  have hle := h.position_le
  rw [h.tokens_eq, List.length_append]
  omega

/-- One call leaves the cursor before the end, takes nothing from behind it, and is the same call
where nothing stands behind it. -/
theorem step (h : Before front t behind s) (c : Command) :
    Before front t behind (s.step c).2 ∧
      (s.onTokens (front ++ [t])).step c =
        ((s.step c).1, (s.step c).2.onTokens (front ++ [t])) ∧
      (s.step c).1.From (front ++ [t]) ∧
      ∃ reports, (s.step c).2.diagnostics = s.diagnostics.reportAll reports ∧
        ReportsFrom (front ++ [t]) reports := by
  have hsub : front.drop s.parser.position ++ [t] ⊆ front ++ [t] := fun u hu =>
    List.mem_append.2 ((List.mem_append.1 hu).imp_left List.mem_of_mem_drop)
  obtain ⟨answer, reports, left, hleft, hanswer, hreports, hsame⟩ :=
    c.effect_barrier (front.drop s.parser.position) h.eof
  have hcut : (s.onTokens (front ++ [t])).parser.ahead =
      front.drop s.parser.position ++ [t] := h.onTokens_cut.ahead_eq
  have hlen := (hleft.trans (List.drop_suffix _ front)).length_le
  rw [step_eq_effect c h.position_le_tokens, step_eq_effect c h.onTokens_cut.position_le_tokens,
    h.ahead_eq, hcut, hsame, hsame []]
  refine ⟨⟨h.tokens_eq, h.eof, ?_⟩, ?_, hanswer.mono hsub, reports, rfl, hreports.mono hsub⟩
  · simp only [Parser.moveTo, h.tokens_eq, List.length_append, List.length_cons]
    omega
  · simp only [onTokens, Parser.moveTo, h.tokens_eq, List.length_append, List.length_cons,
      List.length_nil, Prod.mk.injEq, mk.injEq, Parser.mk.injEq, and_true, true_and]
    omega

theorem run_onTokens (h : Before front t behind s) (cs : List Command) :
    (s.onTokens (front ++ [t])).run cs =
      (s.run cs).map fun x => (x.1, x.2.onTokens (front ++ [t])) := by
  induction cs generalizing s with
  | nil => rfl
  | cons c cs ih =>
    obtain ⟨hnext, hsame, -⟩ := h.step c
    rw [run_cons, run_cons, hsame, List.map_cons, ih hnext]

theorem run_from (h : Before front t behind s) (cs : List Command) :
    ∀ x ∈ s.run cs, x.1.From (front ++ [t]) ∧
      ∃ reports, x.2.diagnostics = s.diagnostics.reportAll reports ∧
        ReportsFrom (front ++ [t]) reports := by
  induction cs generalizing s with
  | nil => intro x hx; cases hx
  | cons c cs ih =>
    obtain ⟨hnext, -, hanswer, reports, hreport, hfrom⟩ := h.step c
    intro x hx
    rw [run_cons] at hx
    rcases List.mem_cons.1 hx with rfl | hx
    · exact ⟨hanswer, reports, hreport, hfrom⟩
    · obtain ⟨hx, later, hlater, hlaterFrom⟩ := ih hnext x hx
      refine ⟨hx, reports ++ later, ?_, fun d hd => (List.mem_append.1 hd).elim (hfrom d)
        (hlaterFrom d)⟩
      rw [hlater, hreport, Diagnostics.reportAll, Diagnostics.reportAll, List.append_assoc]
      rfl

theorem advance (h : Before front t behind s) : Before front t behind s.advance ∧
    s.parser.position ≤ s.advance.parser.position := by
  rw [Session.advance, Parser.advance]
  split
  · exact ⟨h, Nat.le_refl _⟩
  · next hend =>
    refine ⟨⟨h.tokens_eq, h.eof, ?_⟩, Nat.le_succ _⟩
    refine Nat.lt_of_le_of_ne h.position_le fun hpos => hend ?_
    have hahead := h.ahead_eq
    rw [hpos, List.drop_length, List.nil_append] at hahead
    rw [Parser.isAtEnd_of_ahead hahead, Token.isEof, h.eof]
    rfl

theorem looks_within (h : Before front t behind s) :
    s.parser.position < s.parser.tokens.length ∧
      s.parser.position - 1 < s.parser.tokens.length := by
  have hle := h.position_le
  rw [h.tokens_eq, List.length_append, List.length_cons]
  omega

end Before

end Session

namespace Moment

variable {front behind : List Token} {t : Token} {m m' : Moment}

theorem Step.before (hstep : Step m m') (h : Session.Before front t behind m.session) :
    Session.Before front t behind m'.session ∧
      m.session.parser.position ≤ m'.session.parser.position := by
  rcases hstep.parser_eq with heq | heq
  · have hsame : Session.Before front t behind m'.session :=
      ⟨by rw [heq, h.tokens_eq], h.eof, by rw [heq]; exact h.position_le⟩
    exact ⟨hsame, Nat.le_of_eq (by rw [heq])⟩
  · obtain ⟨⟨htokens, heof, hpos⟩, hle⟩ := h.advance
    have hmoved : Session.Before front t behind m'.session :=
      ⟨by rw [heq]; exact htokens, heof, by rw [heq]; exact hpos⟩
    exact ⟨hmoved, by rw [heq]; exact hle⟩

theorem Reaches.before (hreach : Reaches m m') (h : Session.Before front t behind m.session) :
    Session.Before front t behind m'.session := by
  induction hreach with
  | refl => exact h
  | tail _ hstep ih => exact (hstep.before ih).1

end Moment

theorem Parser.closed_first_eof (ts : List Token) :
    ∃ front t behind, closed ts = front ++ t :: behind ∧ t.kind = .eof ∧
      ∀ u ∈ front, u.kind ≠ .eof := by
  obtain ⟨u, hlast, hu⟩ := ended_closed ts
  have hend : u.isEof = true := by simp [Token.isEof, hu]
  obtain ⟨t, front, behind, hfront, ht, hcut, -⟩ :=
    List.exists_of_eraseP (List.mem_of_getLast? hlast) hend
  refine ⟨front, t, behind, hcut, by simpa [Token.isEof] using ht, fun v hv hk => ?_⟩
  exact hfront v hv (by simp [Token.isEof, hk])

theorem Parser.ofTokens_append_eof {ts : List Token} (h : ∀ u ∈ ts.getLast?, u.kind ≠ .eof) :
    ofTokens ts = ofTokens (ts ++ [.eof ((ts.getLast?.map Token.line).getD 1)]) := by
  rw [ofTokens, ofTokens, closed_append_eof _ rfl, closed]
  cases hlast : ts.getLast? with
  | none => rw [List.getLast?_eq_none_iff.1 hlast]; rfl
  | some u =>
    have hu : u.isEof = false := by simpa [Token.isEof] using h u hlast
    simp [hu]

/-- At no moment of the calls has the cursor passed the first end of the text, and it never goes
back, so the tokens that are looked at exist. The calls come to the same on the tokens cut right
after that end, and of these alone are the trees and the errors. -/
theorem Session.run_barrier (ts : List Token) (ds : Diagnostics) (cs : List Command) :
    let first : Session := ⟨.ofTokens ts, ds⟩
    ∃ front t behind, Parser.closed ts = front ++ t :: behind ∧ t.kind = .eof ∧
      (∀ u ∈ front, u.kind ≠ .eof) ∧
      (∀ m, Moment.Reaches (.start first cs) m →
        m.session.parser.tokens = Parser.closed ts ∧
        m.session.parser.position ≤ front.length ∧
        m.session.parser.position < (Parser.closed ts).length ∧
        m.session.parser.position - 1 < (Parser.closed ts).length ∧
        (∀ m', Moment.Step m m' → m.session.parser.position ≤ m'.session.parser.position) ∧
        Moment.Reaches m ⟨first.after cs, .between, [], (first.run cs).map Prod.fst⟩) ∧
      (⟨.ofTokens (front ++ [t]), ds⟩ : Session).run cs =
        (first.run cs).map (fun x => (x.1, x.2.onTokens (front ++ [t]))) ∧
      (∀ x ∈ first.run cs, x.1.From (front ++ [t]) ∧
        ∃ reports, x.2.diagnostics = ds.reportAll reports ∧ ReportsFrom (front ++ [t]) reports) ∧
      ((∀ u ∈ ts.getLast?, u.kind ≠ .eof) → Parser.ofTokens ts =
        .ofTokens (ts ++ [⟨.eof, "", none, (ts.getLast?.map Token.line).getD 1⟩])) := by
  intro first
  obtain ⟨front, t, behind, hcut, ht, hfront⟩ := Parser.closed_first_eof ts
  have hfirst : Before front t behind first := ⟨hcut, ht, Nat.zero_le _⟩
  refine ⟨front, t, behind, hcut, ht, hfront, fun m hm => ?_, ?_, hfirst.run_from cs,
    Parser.ofTokens_append_eof⟩
  · have hbefore : Before front t behind m.session := hm.before hfirst
    have hlooks := hbefore.looks_within
    rw [hbefore.tokens_eq, ← hcut] at hlooks
    exact ⟨hbefore.tokens_eq.trans hcut.symm, hbefore.position_le, hlooks.1, hlooks.2,
      fun m' hstep => (hstep.before hbefore).2, hm.on_path (within_ofTokens ts ds)⟩
  · -- The cut tokens end with `t`, so a parser for them adds no other end.
    have hstart : (⟨.ofTokens (front ++ [t]), ds⟩ : Session) = first.onTokens (front ++ [t]) := by
      rw [Parser.ofTokens, Parser.closed_append_eof front ht]
      rfl
    rw [hstart]
    exact hfirst.run_onTokens cs

end LoxExpr
