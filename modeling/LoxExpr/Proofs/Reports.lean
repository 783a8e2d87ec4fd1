import LoxExpr.Proofs.Grammar.Origin
import LoxExpr.Proofs.Lexical.Composition
import LoxExpr.Proofs.Parser.Memory
set_option autoImplicit false

namespace LoxExpr

/-- The report is on the line of the token and shows its text, or that it is an end of the text. -/
structure Diagnostic.PointsAt (d : Diagnostic) (t : Token) : Prop where
  line_eq : d.line = t.line
  atEnd_iff : d.site = .atEnd ↔ t.kind = .eof
  site_eq : t.kind ≠ .eof → d.site = .atLexeme t.lexeme

theorem Diagnostic.PointsAt.site_ne_line {d : Diagnostic} {t : Token} (h : d.PointsAt t) :
    d.site ≠ .line := by
  by_cases ht : t.kind = .eof
  · rw [h.atEnd_iff.2 ht]
    exact Site.noConfusion
  · rw [h.site_eq ht]
    exact Site.noConfusion

theorem SyntaxError.diagnostic_pointsAt (e : SyntaxError) : e.diagnostic.PointsAt e.token := by
  by_cases ht : e.token.kind = .eof
  · have hend : e.token.isEof = true := by simp [Token.isEof, ht]
    exact ⟨rfl, by simp [diagnostic, hend, ht], fun h => absurd ht h⟩
  · have hend : e.token.isEof = false := by simp [Token.isEof, ht]
    exact ⟨rfl, by simp [diagnostic, hend, ht], fun _ => by simp [diagnostic, hend]⟩

/-- What reading an expression from the tokens comes to: a tree, and nothing is reported, or an
error at one of the tokens, and that alone is reported. -/
inductive Accounts (ts : List Token) : Option Expr → List Diagnostic → Prop where
  | tree {e : Expr} {q : Parser} :
      (Parser.ofTokens ts).parseExpression = (.ok e, q) → Accounts ts (some e) []
  | error {e : SyntaxError} {q : Parser} {d : Diagnostic} :
      (Parser.ofTokens ts).parseExpression = (.error e, q) → e.token ∈ ts → d.PointsAt e.token →
      d.message = e.reason.message → Accounts ts none [d]

namespace Parser

theorem parseExpression_from {ts : List Token} (h : Ended ts) :
    ResultFrom ts (ofTokens ts).parseExpression.1 := by
  have hclosed := closed_of_ended h
  obtain ⟨t, hlast, ht⟩ := h
  obtain ⟨front, rfl⟩ := List.getLast?_eq_some_iff.1 hlast
  obtain ⟨r, left, -, hfrom, hrun⟩ := Rule.expression_barrier maxNesting front ht
  rw [parseExpression, ahead_ofTokens, hclosed, hrun []]
  exact hfrom

theorem parse_accounts {ts : List Token} (h : Ended ts) :
    ∃ expr q reports, Accounts ts expr reports ∧
      ∀ ds, (ofTokens ts).parse ds = (expr, q, ds.reportAll reports) := by
  have hfrom := parseExpression_from h
  cases hrun : (ofTokens ts).parseExpression with
  | mk r q =>
    rw [hrun] at hfrom
    cases r with
    | ok e =>
      refine ⟨some e, q, [], .tree hrun, fun ds => ?_⟩
      simp only [parse, hrun, Diagnostics.reportAll_nil]
    | error e =>
      refine ⟨none, q, [e.diagnostic], .error hrun hfrom e.diagnostic_pointsAt rfl, fun ds => ?_⟩
      simp only [parse, hrun, Diagnostics.report]

end Parser

theorem Scan.ended_ofText (source : String) : Ended (ofText source).tokens := by
  rw [ofText_tokens]
  exact ⟨_, List.getLast?_concat, rfl⟩

theorem Scan.site_of_mem_diagnostics {scan : Scan} {d : Diagnostic} (h : d ∈ scan.diagnostics) :
    d.site = .line := by
  obtain ⟨e, -, rfl⟩ := List.mem_map.1 h
  rfl

theorem Diagnostics.exists_parse_eq_of_tokens {ts : List Token} (h : Ended ts) :
    ∃ expr syntactic, Accounts ts expr syntactic ∧
      ∀ (source : String), (Scan.ofText source).tokens = ts → ∀ ds : Diagnostics,
        ds.parse source =
          (expr, ds.reportAll ((Scan.ofText source).diagnostics ++ syntactic)) := by
  obtain ⟨expr, q, syntactic, haccounts, hparse⟩ := Parser.parse_accounts h
  refine ⟨expr, syntactic, haccounts, ?_⟩
  rintro source rfl ds
  rw [parse, scan]
  dsimp only
  rw [hparse, reportAll, reportAll, reportAll, List.append_assoc]
  rfl

theorem Diagnostics.exists_parse_eq (source : String) :
    ∃ expr syntactic, Accounts (Scan.ofText source).tokens expr syntactic ∧
      ∀ ds : Diagnostics, ds.parse source =
        (expr, ds.reportAll ((Scan.ofText source).diagnostics ++ syntactic)) := by
  obtain ⟨expr, syntactic, haccounts, hparse⟩ :=
    exists_parse_eq_of_tokens (Scan.ended_ofText source)
  exact ⟨expr, syntactic, haccounts, hparse source rfl⟩

theorem Parsed.exists_ofText_eq {ts : List Token} (h : Ended ts) :
    ∃ expr syntactic, Accounts ts expr syntactic ∧
      ∀ source : String, (Diagnostics.empty.scan source).1 = ts →
        ofText source = ⟨expr, ⟨(Diagnostics.empty.scan source).2.items ++ syntactic⟩⟩ := by
  obtain ⟨expr, syntactic, haccounts, hparse⟩ := Diagnostics.exists_parse_eq_of_tokens h
  refine ⟨expr, syntactic, haccounts, fun source hts => ?_⟩
  rw [ofText, hparse source hts]
  rfl

theorem Diagnostics.ofText_accounts (source : String) :
    ∃ syntactic, (Parsed.ofText source).diagnostics.items =
        (Diagnostics.empty.scan source).2.items ++ syntactic ∧
      Accounts (Scan.ofText source).tokens (Parsed.ofText source).expr syntactic := by
  obtain ⟨expr, syntactic, haccounts, hparsed⟩ :=
    Parsed.exists_ofText_eq (Scan.ended_ofText source)
  rw [hparsed source rfl]
  exact ⟨syntactic, rfl, haccounts⟩

namespace Accounts

variable {ts : List Token} {expr : Option Expr} {lexical syntactic : List Diagnostic}

theorem isSome_and_isEmpty_iff (h : Accounts ts expr syntactic) :
    (expr.isSome && (lexical ++ syntactic).isEmpty) = true ↔ lexical ++ syntactic = [] := by
  cases h with
  | tree _ => simp
  | error _ _ _ _ => simp

theorem eq_none_iff (h : Accounts ts expr syntactic) (hlexical : ∀ d ∈ lexical, d.site = .line) :
    expr = none ↔ ∃ d, (lexical ++ syntactic).getLast? = some d ∧ d.site ≠ .line := by
  cases h with
  | tree _ =>
    rw [List.append_nil]
    constructor
    · intro hnone
      cases hnone
    · rintro ⟨d, hd, hsite⟩
      exact absurd (hlexical d (List.mem_of_getLast? hd)) hsite
  | @error e q d _ _ hpoints _ =>
    exact ⟨fun _ => ⟨d, List.getLast?_concat, hpoints.site_ne_line⟩, fun _ => rfl⟩

end Accounts

/-- The answer of parsing to no tree. -/
def Answer.lacksTree : Answer → Bool
  | .tree none => true
  | _ => false

namespace Session

theorem step_reports (s : Session) (c : Command) :
    ∃ reports, (s.step c).2.diagnostics = s.diagnostics.reportAll reports ∧
      reports.length = (if (s.step c).1.lacksTree then 1 else 0) ∧
      ((s.step c).1.lacksTree = true → c = .parse) := by
  cases c with
  | parse =>
    rw [step]
    cases hresult : ((Rule.expression maxNesting).run s.parser.ahead).result with
    | ok e =>
      rw [Parser.parse_of_ok _ hresult]
      exact ⟨[], (Diagnostics.reportAll_nil _).symm, rfl, fun _ => rfl⟩
    | error e =>
      rw [Parser.parse_of_error _ hresult]
      exact ⟨[e.diagnostic], rfl, rfl, fun _ => rfl⟩
  | parseExpression =>
    exact ⟨[], (Diagnostics.reportAll_nil _).symm, rfl, fun h => by cases h⟩
  | synchronize => exact ⟨[], (Diagnostics.reportAll_nil _).symm, rfl, fun h => by cases h⟩
  | isAtEnd => exact ⟨[], (Diagnostics.reportAll_nil _).symm, rfl, fun h => by cases h⟩

theorem after_reports (s : Session) (cs : List Command) :
    ∃ reports, (s.after cs).diagnostics = s.diagnostics.reportAll reports ∧
      reports.length = (s.run cs).countP (fun x => x.1.lacksTree) := by
  induction cs generalizing s with
  | nil => exact ⟨[], (Diagnostics.reportAll_nil _).symm, rfl⟩
  | cons c cs ih =>
    obtain ⟨first, hfirst, hcount, -⟩ := s.step_reports c
    obtain ⟨later, hlater, hcounts⟩ := ih (s.step c).2
    refine ⟨first ++ later, ?_, ?_⟩
    · show ((s.step c).2.after cs).diagnostics = s.diagnostics.reportAll (first ++ later)
      rw [hlater, hfirst, Diagnostics.reportAll, Diagnostics.reportAll, List.append_assoc]
      rfl
    · rw [run_cons, List.countP_cons, List.length_append, hcount, hcounts, Nat.add_comm]

end Session

/-- Scanning and parsing report, after whatever was reported before, the lexical errors of the text
and then at most one syntax error, which is there if the tree is not. In any session the reports
are as many as the times that parsing has given no tree. -/
theorem Diagnostics.parse_reports (ds : Diagnostics) (source : String) (s : Session)
    (cs : List Command) :
    let tokens := (Diagnostics.empty.scan source).1
    let parsed := Parsed.ofText source
    (ds.scan source).1 = tokens ∧ (ds.parse source).1 = parsed.expr ∧
      (∃ ss lexical syntactic, Cut source.toList ss ∧ YieldsAll 1 ss tokens lexical ∧
        (∀ d ∈ lexical, d.site = .line) ∧ Accounts tokens parsed.expr syntactic ∧
        (ds.scan source).2.items = ds.items ++ lexical ∧
        (ds.parse source).2.items = ds.items ++ lexical ++ syntactic ∧
        parsed.diagnostics.items = lexical ++ syntactic) ∧
      (parsed.isClean = true ↔ parsed.diagnostics.items = []) ∧
      (parsed.expr = none ↔ ∃ d, parsed.diagnostics.last? = some d ∧ d.site ≠ .line) ∧
      (∃ reports, (s.after cs).diagnostics = s.diagnostics.reportAll reports ∧
        reports.length = (s.run cs).countP (fun x => x.1.lacksTree)) ∧
      ∀ c, ∃ reports, ((s.after cs).step c).2.diagnostics =
          (s.after cs).diagnostics.reportAll reports ∧
        reports.length = (if ((s.after cs).step c).1.lacksTree then 1 else 0) ∧
        (((s.after cs).step c).1.lacksTree = true → c = .parse) := by
  intro tokens parsed
  obtain ⟨expr, syntactic, haccounts, hparse⟩ := exists_parse_eq source
  let lexical := (Scan.ofText source).diagnostics
  have hlexical : ∀ d ∈ lexical, d.site = .line := fun d => Scan.site_of_mem_diagnostics
  have hparsed : parsed = ⟨expr, ⟨lexical ++ syntactic⟩⟩ := by
    show Parsed.ofText source = _
    rw [Parsed.ofText, hparse]
    rfl
  have hcut := cut_segments source.toList
  rw [hparsed, hparse]
  refine ⟨rfl, rfl, ⟨segments source.toList, lexical, syntactic, hcut, hcut.yieldsAll 1, hlexical,
    haccounts, rfl, (List.append_assoc _ _ _).symm, rfl⟩, haccounts.isSome_and_isEmpty_iff,
    haccounts.eq_none_iff hlexical, s.after_reports cs, (s.after cs).step_reports⟩

end LoxExpr
