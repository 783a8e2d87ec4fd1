import Mathlib.Data.List.Forall2
import LoxExpr.Proofs.Grammar.Twins
import LoxExpr.Proofs.Grammar.Written
import LoxExpr.Proofs.Reports
set_option autoImplicit false

namespace LoxExpr

theorem Token.Alike.isEof_eq {s t : Token} (h : s.Alike t) : s.isEof = t.isEof := by
  rw [isEof, isEof, h.kind_eq]

theorem toBoundary_twins {s t : Token} (hst : s.kind = t.kind) {zs : List (Token × Token)}
    (hzs : AllAlike zs) : ∃ taken left, zs = taken ++ left ∧
      toBoundary s (zs.map Prod.fst) = left.map Prod.fst ∧
      toBoundary t (zs.map Prod.snd) = left.map Prod.snd := by
  induction zs generalizing s t with
  | nil => exact ⟨[], [], rfl, rfl, rfl⟩
  | cons z zs ih =>
    obtain ⟨u, v⟩ := z
    have huv : u.kind = v.kind := hzs.head.kind_eq
    have hend : u.isEof = v.isEof := hzs.head.isEof_eq
    rw [List.map_cons, List.map_cons, toBoundary, toBoundary, hend, hst, huv]
    by_cases hstop :
        (v.isEof || t.kind == .symbol .semicolon || v.kind.startsStatement) = true
    · rw [if_pos hstop, if_pos hstop]
      exact ⟨[], (u, v) :: zs, rfl, rfl, rfl⟩
    · rw [if_neg hstop, if_neg hstop]
      obtain ⟨taken, left, rfl, hleft, hright⟩ := ih huv hzs.tail
      exact ⟨(u, v) :: taken, left, rfl, hleft, hright⟩

theorem recover_twins {zs : List (Token × Token)} (hzs : AllAlike zs) :
    ∃ taken left, zs = taken ++ left ∧ recover (zs.map Prod.fst) = left.map Prod.fst ∧
      recover (zs.map Prod.snd) = left.map Prod.snd := by
  cases zs with
  | nil => exact ⟨[], [], rfl, rfl, rfl⟩
  | cons z zs =>
    obtain ⟨u, v⟩ := z
    have hend : u.isEof = v.isEof := hzs.head.isEof_eq
    rw [List.map_cons, List.map_cons, recover, recover, hend]
    by_cases hstop : v.isEof = true
    · rw [if_pos hstop, if_pos hstop]
      exact ⟨[], (u, v) :: zs, rfl, rfl, rfl⟩
    · rw [if_neg hstop, if_neg hstop]
      obtain ⟨taken, left, rfl, hleft, hright⟩ := toBoundary_twins hzs.head.kind_eq hzs.tail
      exact ⟨(u, v) :: taken, left, rfl, hleft, hright⟩

theorem AllAlike.isEof_current {zs : List (Token × Token)} (hzs : AllAlike zs) :
    (current (zs.map Prod.fst)).isEof = (current (zs.map Prod.snd)).isEof := by
  cases zs with
  | nil => rfl
  | cons z zs => exact hzs.head.isEof_eq

/-- The errors have one reason and are bound to the two tokens of one pair: the first one that is
left, or the last one taken if these are literals without a value. -/
inductive SyntaxError.Twins (taken left : List (Token × Token)) :
    SyntaxError → SyntaxError → Prop where
  | ahead {reason : Reason} {s t : Token} : reason ≠ .expectLiteralValue →
      left.head? = some (s, t) → Twins taken left ⟨reason, s⟩ ⟨reason, t⟩
  | behind {s t : Token} : taken.getLast? = some (s, t) →
      Twins taken left ⟨.expectLiteralValue, s⟩ ⟨.expectLiteralValue, t⟩

inductive Answer.Twins (taken left : List (Token × Token)) :
    Answer → List Diagnostic → Answer → List Diagnostic → Prop where
  | tree {e f : Expr} : Expr.Twins taken e f →
      Twins taken left (.tree (some e)) [] (.tree (some f)) []
  | noTree {x y : SyntaxError} : SyntaxError.Twins taken left x y →
      Twins taken left (.tree none) [x.diagnostic] (.tree none) [y.diagnostic]
  | result {e f : Expr} : Expr.Twins taken e f →
      Twins taken left (.outcome (.ok e)) [] (.outcome (.ok f)) []
  | error {x y : SyntaxError} : SyntaxError.Twins taken left x y →
      Twins taken left (.outcome (.error x)) [] (.outcome (.error y)) []
  | synchronized : Twins taken left .synchronized [] .synchronized []
  | atEnd {answer : Bool} : Twins taken left (.atEnd answer) [] (.atEnd answer) []

theorem Outcome.Twins.results {zs : List (Token × Token)} {o p : Outcome} (h : Twins zs o p)
    (hend : Ended o.rest) : ∃ taken left, zs = taken ++ left ∧
      o.rest = left.map Prod.fst ∧ p.rest = left.map Prod.snd ∧
      ((∃ e f, o.result = .ok e ∧ p.result = .ok f ∧ Expr.Twins taken e f) ∨
        ∃ x y, o.result = .error x ∧ p.result = .error y ∧ SyntaxError.Twins taken left x y) := by
  cases h with
  | tree ys rest hcut htwins =>
    exact ⟨ys, rest, hcut, rfl, rfl, .inl ⟨_, _, rfl, rfl, htwins⟩⟩
  | refused ys rest hcut hreason =>
    refine ⟨ys, rest, hcut, rfl, rfl, .inr ⟨_, _, rfl, rfl, ?_⟩⟩
    cases rest with
    | nil =>
      obtain ⟨t, hlast, -⟩ := hend
      cases hlast
    | cons z rest => exact .ahead hreason rfl
  | valueless ys rest hcut =>
    refine ⟨ys ++ [_], rest, by rw [hcut, List.append_assoc]; rfl, rfl, rfl,
      .inr ⟨_, _, rfl, rfl, .behind List.getLast?_concat⟩⟩

theorem Command.effect_twins (c : Command) {zs : List (Token × Token)} (hzs : AllAlike zs)
    (hend : Ended (zs.map Prod.fst)) : ∃ taken left, zs = taken ++ left ∧
      (c.effect (zs.map Prod.fst)).rest = left.map Prod.fst ∧
      (c.effect (zs.map Prod.snd)).rest = left.map Prod.snd ∧
      Answer.Twins taken left (c.effect (zs.map Prod.fst)).answer
        (c.effect (zs.map Prod.fst)).reports (c.effect (zs.map Prod.snd)).answer
        (c.effect (zs.map Prod.snd)).reports := by
  have hleaves := Rule.leaves_expression maxNesting (zs.map Prod.fst)
  obtain ⟨taken, left, hcut, hfst, hsnd, hresults⟩ :=
    (Rule.uniform_expression maxNesting zs hzs).results (hleaves.ended hend)
  cases c with
  | parse =>
    rcases hresults with ⟨e, f, he, hf, htwins⟩ | ⟨x, y, hx, hy, htwins⟩
    · simp only [effect, he, hf]
      exact ⟨taken, left, hcut, hfst, hsnd, .tree htwins⟩
    · simp only [effect, hx, hy]
      exact ⟨taken, left, hcut, hfst, hsnd, .noTree htwins⟩
  | parseExpression =>
    rcases hresults with ⟨e, f, he, hf, htwins⟩ | ⟨x, y, hx, hy, htwins⟩
    · simp only [effect, he, hf]
      exact ⟨taken, left, hcut, hfst, hsnd, .result htwins⟩
    · simp only [effect, hx, hy]
      exact ⟨taken, left, hcut, hfst, hsnd, .error htwins⟩
  | synchronize =>
    obtain ⟨taken, left, hcut, hfst, hsnd⟩ := recover_twins hzs
    exact ⟨taken, left, hcut, hfst, hsnd, .synchronized⟩
  | isAtEnd =>
    refine ⟨[], zs, rfl, rfl, rfl, ?_⟩
    simp only [effect, hzs.isEof_current]
    exact .atEnd

theorem pieces_of_drop {α : Type} {zs taken left : List α} {start : Nat}
    (h : zs.drop start = taken ++ left) (hstart : start ≤ zs.length) :
    (zs.take (zs.length - left.length)).drop start = taken ∧
      zs.drop (zs.length - left.length) = left := by
  have hlen := congrArg List.length h
  rw [List.length_drop, List.length_append] at hlen
  have hstop : zs.length - left.length = start + taken.length := by omega
  rw [hstop, List.drop_take, ← List.drop_drop, h, Nat.add_sub_cancel_left]
  exact ⟨List.take_left, List.drop_left⟩

namespace Session

theorem Within.step_eq {ts us : List Token} {s : Session} (h : Within ts s)
    (hahead : s.parser.ahead = us) (c : Command) :
    (s.step c).1 = (c.effect us).answer ∧
      (s.step c).2.parser.position = ts.length - (c.effect us).rest.length ∧
      (s.step c).2.diagnostics = s.diagnostics.reportAll (c.effect us).reports := by
  have hpos : s.parser.position ≤ s.parser.tokens.length := by
    rw [h.tokens_eq]
    exact Nat.le_of_lt h.position_lt
  rw [step_eq_effect c hpos, hahead]
  exact ⟨rfl, by rw [Parser.moveTo, h.tokens_eq], rfl⟩

structure Twins (zs : List (Token × Token)) (s s' : Session) : Prop where
  left : Within (zs.map Prod.fst) s
  right : Within (zs.map Prod.snd) s'
  position_eq : s'.parser.position = s.parser.position

namespace Twins

variable {zs : List (Token × Token)} {s s' : Session}

theorem ahead_eq (h : Twins zs s s') :
    s.parser.ahead = (zs.drop s.parser.position).map Prod.fst ∧
      s'.parser.ahead = (zs.drop s.parser.position).map Prod.snd := by
  rw [Parser.ahead, Parser.ahead, h.left.tokens_eq, h.right.tokens_eq, h.position_eq,
    List.map_drop, List.map_drop]
  exact ⟨rfl, rfl⟩

theorem isAtEnd_eq (h : Twins zs s s') (hzs : AllAlike zs) :
    s'.parser.isAtEnd = s.parser.isAtEnd := by
  rw [Parser.isAtEnd, Parser.isAtEnd, h.ahead_eq.1, h.ahead_eq.2, (hzs.drop _).isEof_current]

/-- One call comes to the same on both sides. -/
theorem step (h : Twins zs s s') (hzs : AllAlike zs) (c : Command) :
    let t := (s.step c).2
    Twins zs t (s'.step c).2 ∧ ∃ reports reports',
      t.diagnostics = s.diagnostics.reportAll reports ∧
      (s'.step c).2.diagnostics = s'.diagnostics.reportAll reports' ∧
      Answer.Twins ((zs.take t.parser.position).drop s.parser.position)
        (zs.drop t.parser.position) (s.step c).1 reports (s'.step c).1 reports' := by
  obtain ⟨hahead, hahead'⟩ := h.ahead_eq
  have hend := h.left.ended
  rw [hahead] at hend
  obtain ⟨taken, left, hcut, hleft, hright, hanswers⟩ := c.effect_twins (hzs.drop _) hend
  obtain ⟨hanswer, hstop, hreports⟩ := h.left.step_eq hahead c
  obtain ⟨hanswer', hstop', hreports'⟩ := h.right.step_eq hahead' c
  rw [hleft, List.length_map, List.length_map] at hstop
  rw [hright, List.length_map, List.length_map] at hstop'
  have hstart : s.parser.position ≤ zs.length := by
    have hlt := h.left.position_lt
    rw [List.length_map] at hlt
    exact Nat.le_of_lt hlt
  obtain ⟨htaken, hrest⟩ := pieces_of_drop hcut hstart
  refine ⟨⟨h.left.step c, h.right.step c, hstop'.trans hstop.symm⟩, _, _, hreports, hreports', ?_⟩
  rw [hstop, htaken, hrest, hanswer, hanswer']
  exact hanswers

theorem after (h : Twins zs s s') (hzs : AllAlike zs) (cs : List Command) :
    Twins zs (s.after cs) (s'.after cs) := by
  induction cs generalizing s s' with
  | nil => exact h
  | cons c cs ih => exact ih (h.step hzs c).1

end Twins

theorem allAlike_zip {ts us : List Token} (h : List.Forall₂ Token.Alike ts us) :
    AllAlike (ts.zip us) ∧ (ts.zip us).map Prod.fst = ts ∧ (ts.zip us).map Prod.snd = us := by
  obtain ⟨hlen, hzip⟩ := List.forall₂_iff_zip.1 h
  exact ⟨fun z hz => hzip hz, List.map_fst_zip (Nat.le_of_eq hlen),
    List.map_snd_zip (Nat.le_of_eq hlen.symm)⟩

theorem twins_ofTokens {ts us : List Token}
    (h : List.Forall₂ Token.Alike (Parser.closed ts) (Parser.closed us)) (ds ds' : Diagnostics) :
    Twins ((Parser.closed ts).zip (Parser.closed us)) ⟨.ofTokens ts, ds⟩ ⟨.ofTokens us, ds'⟩ := by
  obtain ⟨-, hfst, hsnd⟩ := allAlike_zip h
  exact ⟨by rw [hfst]; exact within_ofTokens ts ds, by rw [hsnd]; exact within_ofTokens us ds', rfl⟩

end Session

namespace Token

theorem alike_of_unplaced {s t : Token} (h : s.unplaced = t.unplaced) : s.Alike t :=
  ⟨kind_of_unplaced h, congrArg Option.isSome (literal_of_unplaced h)⟩

theorem role_unplaced (t : Token) : t.unplaced.role = t.role := rfl

theorem denotes_unique {s t : Token} {v w : Literal} (h : s.unplaced = t.unplaced)
    (hv : s.Denotes v) (hw : t.Denotes w) : v = w := by
  have hrole : s.role = t.role := by rw [← role_unplaced s, h, role_unplaced]
  rw [role_eq_leaf_iff.2 hv, role_eq_leaf_iff.2 hw] at hrole
  exact Role.leaf.inj hrole

end Token

theorem Expr.Twins.unplaced_eq {zs : List (Token × Token)} {e f : Expr} (h : Expr.Twins zs e f)
    (hzs : ∀ z ∈ zs, z.1.unplaced = z.2.unplaced) : e.unplaced = f.unplaced := by
  induction h with
  | leaf hv hw =>
    rw [Token.denotes_unique (hzs _ List.mem_cons_self) hv hw]
  | grouping _ _ _ ih =>
    have hinner := ih fun z hz => hzs z (List.mem_cons_of_mem _ (List.mem_append_left _ hz))
    rw [unplaced, unplaced, hinner]
  | unary _ ih =>
    have hop := hzs _ List.mem_cons_self
    have hoperand := ih fun z hz => hzs z (List.mem_cons_of_mem _ hz)
    rw [unplaced, unplaced, hop, hoperand]
  | binary _ _ ihl ihr =>
    have hop := hzs _ (List.mem_append_right _ List.mem_cons_self)
    have hleft := ihl fun z hz => hzs z (List.mem_append_left _ hz)
    have hright := ihr fun z hz => hzs z (List.mem_append_right _ (List.mem_cons_of_mem _ hz))
    rw [unplaced, unplaced, hop, hleft, hright]

theorem Outcome.Twins.unplaced_eq {zs : List (Token × Token)} {o p : Outcome} (h : Twins zs o p)
    (hzs : ∀ z ∈ zs, z.1.unplaced = z.2.unplaced) :
    o.result.toOption.map Expr.unplaced = p.result.toOption.map Expr.unplaced := by
  rcases h.cases_result with ⟨ys, rest, e, f, rfl, htwins, rfl, rfl⟩ | ⟨x, y, us, vs, rfl, rfl, -⟩
  · exact congrArg some (htwins.unplaced_eq fun z hz => hzs z (List.mem_append_left rest hz))
  · rfl

theorem Accounts.expr_eq {ts : List Token} {expr : Option Expr} {syntactic : List Diagnostic}
    (h : Accounts ts expr syntactic) :
    expr = (Parser.ofTokens ts).parseExpression.1.toOption := by
  cases h with
  | tree hrun => rw [hrun]; rfl
  | error hrun _ _ _ => rw [hrun]; rfl

namespace Parsed

theorem expr_eq_run (source : String) : (ofText source).expr =
    ((Rule.expression maxNesting).run (Scan.ofText source).tokens).result.toOption := by
  obtain ⟨syntactic, -, haccounts⟩ := Diagnostics.ofText_accounts source
  rw [haccounts.expr_eq, Parser.parseExpression, Parser.ahead_ofTokens,
    Parser.closed_of_ended (Scan.ended_ofText source)]

/-- Texts that are scanned as the same tokens, on whatever lines, are read as the same trees but for
the lines of the operators. -/
theorem unplaced_eq_of_scan {source source' : String}
    (h : (Scan.ofText source).tokens.map Token.unplaced =
      (Scan.ofText source').tokens.map Token.unplaced) :
    (ofText source).expr.map Expr.unplaced = (ofText source').expr.map Expr.unplaced := by
  rw [← List.forall₂_eq_eq_eq, List.forall₂_map_left_iff, List.forall₂_map_right_iff] at h
  obtain ⟨-, hzip⟩ := List.forall₂_iff_zip.1 h
  obtain ⟨halike, hfst, hsnd⟩ :=
    Session.allAlike_zip (h.imp fun _ _ => Token.alike_of_unplaced)
  have htwins := Rule.uniform_expression maxNesting _ halike
  rw [hfst, hsnd] at htwins
  rw [expr_eq_run, expr_eq_run]
  exact htwins.unplaced_eq fun z hz => hzip hz

end Parsed

/-- The calls of two parsers whose tokens are pairwise alike in kind and in whether they carry a
value take the same ways: each leaves both cursors at one place and gives the same answer, in which
the tokens of either side stand at the same places. So texts that are scanned as the same tokens on
other lines have the same trees but for the lines of the operators, which are written alike. -/
theorem Session.run_alike :
    (∀ (ts us : List Token) (ds ds' : Diagnostics) (cs : List Command),
      List.Forall₂ Token.Alike (Parser.closed ts) (Parser.closed us) →
        let zs := (Parser.closed ts).zip (Parser.closed us)
        let first : Session := ⟨.ofTokens ts, ds⟩
        let first' : Session := ⟨.ofTokens us, ds'⟩
        let s := first.after cs
        let s' := first'.after cs
        s'.parser.position = s.parser.position ∧ s'.parser.isAtEnd = s.parser.isAtEnd ∧
          ∀ c, first.run (cs ++ [c]) = first.run cs ++ [s.step c] ∧
            first'.run (cs ++ [c]) = first'.run cs ++ [s'.step c] ∧
            (s'.step c).2.parser.position = (s.step c).2.parser.position ∧
            ∃ reports reports',
              (s.step c).2.diagnostics = s.diagnostics.reportAll reports ∧
              (s'.step c).2.diagnostics = s'.diagnostics.reportAll reports' ∧
              Answer.Twins
                ((zs.take (s.step c).2.parser.position).drop s.parser.position)
                (zs.drop (s.step c).2.parser.position)
                (s.step c).1 reports (s'.step c).1 reports') ∧
    ∀ source source' : String,
      (Diagnostics.empty.scan source).1.map Token.unplaced =
          (Diagnostics.empty.scan source').1.map Token.unplaced →
        (Parsed.ofText source).expr.map Expr.unplaced =
            (Parsed.ofText source').expr.map Expr.unplaced ∧
          (Parsed.ofText source).expr.map Expr.parenthesized =
            (Parsed.ofText source').expr.map Expr.parenthesized := by
  refine ⟨fun ts us ds ds' cs halike => ?_, fun source source' hscan => ?_⟩
  · intro zs first first' s s'
    have hzs : AllAlike zs := (allAlike_zip halike).1
    have hs : Twins zs s s' := (twins_ofTokens halike ds ds').after hzs cs
    refine ⟨hs.position_eq, hs.isAtEnd_eq hzs, fun c => ?_⟩
    obtain ⟨hnext, hanswers⟩ := hs.step hzs c
    exact ⟨run_concat first cs c, run_concat first' cs c, hnext.position_eq, hanswers⟩
  · have htrees := Parsed.unplaced_eq_of_scan hscan
    have hprint := congrArg (Option.map Expr.parenthesized) htrees
    simp only [Option.map_map, Function.comp_def, Expr.parenthesized_unplaced] at hprint
    exact ⟨htrees, hprint⟩

theorem Session.run_alike_sum :
    let op (lexeme : String) (line : Nat) : Token := ⟨.symbol .plus, lexeme, none, line⟩
    let ts : List Token :=
      [⟨.number, "0", some (.number (.ofBits 0)), 1⟩, op "+" 2,
        ⟨.string, "ab", some (.str "ab"), 2⟩]
    let us : List Token :=
      [⟨.number, "", some .nil, 7⟩, op "-" 0, ⟨.string, "0", some (.bool true), 3⟩]
    let e : Expr := .binary (.literal (.number (.ofBits 0))) (op "+" 2) (.literal (.str "ab"))
    let f : Expr := .binary (.literal .nil) (op "-" 0) (.literal (.bool true))
    List.Forall₂ Token.Alike (Parser.closed ts) (Parser.closed us) ∧
      ((Parser.ofTokens ts).parse .empty).1 = some e ∧
      ((Parser.ofTokens us).parse .empty).1 = some f ∧ Expr.Twins (ts.zip us) e f ∧
      (Diagnostics.empty.scan "1 +\n2").1.map Token.unplaced =
        (Diagnostics.empty.scan "1+ 2").1.map Token.unplaced ∧
      (Parsed.ofText "1 +\n2").expr.map Expr.unplaced =
        (Parsed.ofText "1+ 2").expr.map Expr.unplaced := by
  intro op ts us e f
  have halike : List.Forall₂ Token.Alike (Parser.closed ts) (Parser.closed us) :=
    .cons ⟨rfl, rfl⟩ (.cons ⟨rfl, rfl⟩ (.cons ⟨rfl, rfl⟩ (.cons ⟨rfl, rfl⟩ .nil)))
  have he : ((Parser.ofTokens ts).parse .empty).1 = some e := by decide +kernel
  have hf : ((Parser.ofTokens us).parse .empty).1 = some f := by decide +kernel
  have hscan : (Diagnostics.empty.scan "1 +\n2").1.map Token.unplaced =
      (Diagnostics.empty.scan "1+ 2").1.map Token.unplaced := by decide +kernel
  obtain ⟨hcalls, htexts⟩ := run_alike
  obtain ⟨-, -, hnext⟩ := hcalls ts us .empty .empty [] halike
  obtain ⟨-, -, -, reports, reports', -, -, htwins⟩ := hnext .parse
  let zs := (Parser.closed ts).zip (Parser.closed us)
  let stop := ((Parser.ofTokens ts).parse .empty).2.1.position
  have hanswer : Answer.Twins ((zs.take stop).drop 0) (zs.drop stop)
      (.tree ((Parser.ofTokens ts).parse .empty).1) reports
      (.tree ((Parser.ofTokens us).parse .empty).1) reports' := htwins
  have hstop : stop = 3 := by decide +kernel
  rw [hstop, he, hf] at hanswer
  cases hanswer with
  | tree h => exact ⟨halike, he, hf, h, hscan, (htexts _ _ hscan).1⟩

end LoxExpr
