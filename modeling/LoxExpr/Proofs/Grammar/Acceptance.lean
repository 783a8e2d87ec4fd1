import LoxExpr.Parser
import LoxExpr.Proofs.Grammar.Equations
set_option autoImplicit false

namespace LoxExpr

namespace Rule

/-- The rule answers a tree iff the tokens it takes derive it within fewer than `n` nestings and
the phrase ends there. -/
def Reads (p : Rule) (φ : Phrase) (n : Nat) : Prop :=
  ∀ (ts rest : List Token) (e : Expr), p.run ts = ⟨.ok e, rest⟩ ↔
    ∃ us, ts = us ++ rest ∧ Derives φ us e ∧ e.nesting < n ∧ φ.Ends rest

theorem reads_deny (φ : Phrase) : deny.Reads φ 0 := by
  intro ts rest e
  constructor
  · intro h
    simp [deny, Outcome.refuse] at h
  · rintro ⟨us, -, -, hn, -⟩
    omega

theorem chainFrom_sound {l : Level} {p : Rule} {n : Nat} (hp : p.Reads l.operand n)
    {left e : Expr} {ts rest : List Token} (hl : left.nesting < n) (hts : l.operand.Ends ts)
    (h : chainFrom l p left ts = ⟨.ok e, rest⟩) :
    ∃ us, ts = us ++ rest ∧ Derives (.links l left) us e ∧ e.nesting < n ∧
      (Phrase.level l).Ends rest := by
  induction left, ts using chainFrom.induct l p with
  | case1 left =>
    rw [chainFrom_nil] at h
    cases h
    exact ⟨[], rfl, .done, hl, by simp [Phrase.Ends]⟩
  | case2 left t ts accepts right x hx ih =>
    have hop := Level.accepts_iff_joins.1 accepts
    have hrun : p.run ts = ⟨.ok x, right.rest⟩ := by rw [← hx]
    obtain ⟨vs, hvs, hd, hn, hvend⟩ := (hp ts right.rest x).1 hrun
    have hx : (Expr.binary left t x).nesting < n := Nat.max_lt.2 ⟨hl, hn⟩
    rw [chainFrom_ok left hop hrun] at h
    obtain ⟨us, hus, hlinks, he, hend⟩ := ih hx hvend h
    exact ⟨t :: (vs ++ us), by simp [hvs, hus], .link hop hd hlinks, he, hend⟩
  | case3 left t ts accepts right x hx =>
    have hrun : p.run ts = ⟨.error x, right.rest⟩ := by rw [← hx]
    rw [chainFrom_error left (Level.accepts_iff_joins.1 accepts) hrun] at h
    cases h
  | case4 left t ts accepts =>
    have hop := mt Level.accepts_iff_joins.2 accepts
    rw [chainFrom_stop p left ts hop] at h
    cases h
    exact ⟨[], rfl, .done, hl, Phrase.ends_of_operand hop hts⟩

theorem chainFrom_complete {l : Level} {p : Rule} {n : Nat} (hp : p.Reads l.operand n)
    {left e : Expr} {us rest : List Token} {φ : Phrase} (h : Derives φ us e)
    (hφ : φ = .links l left) (hn : e.nesting < n) (hend : (Phrase.level l).Ends rest) :
    chainFrom l p left (us ++ rest) = ⟨.ok e, rest⟩ := by
  induction h generalizing left with
  | done =>
    cases hφ
    cases rest with
    | nil => exact chainFrom_nil _ p _
    | cons t rest => exact chainFrom_stop p _ rest (hend t rfl _ (Nat.le_refl _))
  | @link m op ts us first right e hop hd hlinks _ ih =>
    obtain ⟨rfl, rfl⟩ := Phrase.links.inj hφ
    have hright : p.run (ts ++ (us ++ rest)) = ⟨.ok right, us ++ rest⟩ := by
      have hle := hlinks.nesting_links rfl
      refine (hp _ _ _).2 ⟨ts, rfl, hd, ?_, hlinks.ends_operand hend⟩
      simp only [Expr.nesting] at hle
      omega
    rw [List.cons_append, List.append_assoc, chainFrom_ok first hop hright]
    exact ih rfl hn
  | _ => cases hφ

theorem reads_chain {l : Level} {p : Rule} {n : Nat} (hp : p.Reads l.operand n) :
    (chain l p).Reads (.level l) n := by
  intro ts rest e
  constructor
  · intro h
    cases hrun : p.run ts with
    | mk r us =>
      cases r with
      | error x => rw [chain_error hrun] at h; cases h
      | ok first =>
        obtain ⟨vs, hvs, hd, hn, hend⟩ := (hp ts us first).1 hrun
        rw [chain_ok hrun] at h
        obtain ⟨ws, hws, hlinks, he, hrest⟩ := chainFrom_sound hp hn hend h
        exact ⟨vs ++ ws, by rw [List.append_assoc, ← hws, ← hvs], .level hd hlinks, he, hrest⟩
  · rintro ⟨us, rfl, h, hn, hend⟩
    cases h with
    | @level _ ts us first e hd hlinks =>
      have hle := hlinks.nesting_links rfl
      have hrun : p.run (ts ++ (us ++ rest)) = ⟨.ok first, us ++ rest⟩ :=
        (hp _ _ _).2 ⟨ts, rfl, hd, by omega, hlinks.ends_operand hend⟩
      rw [List.append_assoc, chain_ok hrun]
      exact chainFrom_complete hp hlinks rfl hn hend

theorem reads_levels {p : Rule} {n : Nat} (hp : p.Reads .unary n) :
    (levels p).Reads .expression n := by
  have h : (levels p).Reads (.level .equality) n :=
    reads_chain (l := .equality) (reads_chain (l := .comparison) (reads_chain (l := .term)
      (reads_chain (l := .factor) hp)))
  intro ts rest e
  rw [h ts rest e]
  constructor
  · rintro ⟨us, hus, hd, hn, hend⟩
    exact ⟨us, hus, .expression hd, hn, hend⟩
  · rintro ⟨us, hus, hd, hn, hend⟩
    cases hd with
    | expression hd => exact ⟨us, hus, hd, hn, hend⟩

theorem reads_operandOver {p q : Rule} {n : Nat} (hp : p.Reads .unary n)
    (hq : q.Reads .expression n) : (operandOver p q).Reads .unary (n + 1) := by
  intro ts rest e
  constructor
  · intro h
    cases ts with
    | nil => simp [operandOver_nil, Outcome.refuse] at h
    | cons t ts =>
      have hend : Phrase.unary.Ends rest := Phrase.ends_of_four_le (Nat.le_refl _) rest
      rw [operandOver_cons] at h
      cases hrole : t.role with
      | sign =>
        simp only [hrole] at h
        obtain ⟨x, hrun, rfl⟩ := Outcome.map_eq_ok h
        obtain ⟨us, rfl, hd, hn, -⟩ := (hp ts rest x).1 hrun
        exact ⟨t :: us, rfl, .unary (Token.role_eq_sign_iff.1 hrole) hd, Nat.succ_lt_succ hn, hend⟩
      | opening =>
        simp only [hrole] at h
        obtain ⟨x, c, hrun, hc, rfl⟩ := Outcome.close_eq_ok h
        obtain ⟨us, rfl, hd, hn, -⟩ := (hq ts (c :: rest) x).1 hrun
        have ho := Token.role_eq_opening_iff.1 hrole
        exact ⟨t :: (us ++ [c]), by simp, .primary (.group ho hd hc), Nat.succ_lt_succ hn, hend⟩
      | leaf v =>
        simp only [hrole] at h
        cases h
        have hv := Token.role_eq_leaf_iff.1 hrole
        exact ⟨[t], rfl, .primary (.leaf hv), Nat.succ_pos n, hend⟩
      | valueless => simp [hrole] at h
      | other => simp [hrole, Outcome.refuse] at h
  · rintro ⟨us, rfl, h, hn, -⟩
    cases h with
    | @unary op us e hop hd =>
      have hends : Phrase.unary.Ends rest := Phrase.ends_of_four_le (Nat.le_refl _) rest
      have hrun := (hp (us ++ rest) rest e).2 ⟨us, rfl, hd, Nat.lt_of_succ_lt_succ hn, hends⟩
      rw [List.cons_append, operandOver_cons, Token.role_eq_sign_iff.2 hop]
      simp [hrun, Outcome.map_ok]
    | primary h =>
      cases h with
      | @leaf t v hv =>
        rw [List.singleton_append, operandOver_cons, Token.role_eq_leaf_iff.2 hv]
      | @group o c us e ho hd hc =>
        have hends : Phrase.expression.Ends (c :: rest) := by
          intro t ht l _ hj
          obtain rfl : c = t := by simpa using ht
          rw [hc] at hj
          cases hj
        have hrun := (hq (us ++ (c :: rest)) (c :: rest) e).2
          ⟨us, rfl, hd, Nat.lt_of_succ_lt_succ hn, hends⟩
        rw [List.cons_append, List.append_assoc, List.singleton_append, operandOver_cons,
          Token.role_eq_opening_iff.2 ho]
        simp [hrun, Outcome.close_ok_cons e rest hc]

theorem reads_operand (n : Nat) : (operand n).Reads .unary (n + 1) := by
  induction n with
  | zero => exact reads_operandOver (reads_deny .unary) (reads_deny .expression)
  | succ n ih => exact reads_operandOver ih (reads_levels ih)

theorem reads_expression (n : Nat) : (expression n).Reads .expression n := by
  cases n with
  | zero => exact reads_deny .expression
  | succ n => exact reads_levels (reads_operand n)

end Rule

theorem Derives.kind_ne_eof {φ : Phrase} {ts : List Token} {e : Expr} (h : Derives φ ts e) :
    ∀ t ∈ ts, t.kind ≠ .eof := by
  induction h with
  | expression _ ih => exact ih
  | level _ _ ih₁ ih₂ => exact fun t ht => (List.mem_append.1 ht).elim (ih₁ t) (ih₂ t)
  | done => intro t ht; cases ht
  | link hop _ _ ih₁ ih₂ =>
    intro t ht
    rcases List.mem_cons.1 ht with rfl | ht
    · exact hop.ne_eof
    · exact (List.mem_append.1 ht).elim (ih₁ t) (ih₂ t)
  | unary hop _ ih =>
    intro t ht
    rcases List.mem_cons.1 ht with rfl | ht
    · exact hop.ne_eof
    · exact ih t ht
  | primary _ ih => exact ih
  | leaf hv =>
    intro t ht hk
    obtain rfl := List.mem_singleton.1 ht
    cases hv <;> simp_all
  | group ho _ hc ih =>
    intro t ht
    rcases List.mem_cons.1 ht with rfl | ht
    · simp [ho]
    · rcases List.mem_append.1 ht with ht | ht
      · exact ih t ht
      · obtain rfl := List.mem_singleton.1 ht; simp [hc]

namespace Parser

theorem closed_last (ts : List Token) :
    ∃ front t, closed ts = front ++ [t] ∧ t.kind = .eof := by
  unfold closed
  split
  · exact ⟨[], .eof 1, rfl, rfl⟩
  · next t ht =>
    split
    · next he =>
      obtain ⟨front, hf⟩ := List.getLast?_eq_some_iff.1 ht
      exact ⟨front, t, hf, by simpa [Token.isEof] using he⟩
    · exact ⟨ts, .eof t.line, rfl, rfl⟩

theorem closed_append_eof {t : Token} (ts : List Token) (h : t.kind = .eof) :
    closed (ts ++ [t]) = ts ++ [t] := by
  have ht : t.isEof = true := by simp [Token.isEof, h]
  simp [closed, ht]

theorem prefix_closed (ts : List Token) : ts <+: closed ts := by
  unfold closed
  split
  · next h =>
    rw [List.getLast?_eq_none_iff.1 h]
    exact List.nil_prefix
  · split
    · exact List.prefix_refl ts
    · exact List.prefix_append ts _

theorem ahead_ofTokens (ts : List Token) : (ofTokens ts).ahead = closed ts := rfl

theorem moveTo_ofTokens (ts rest : List Token) :
    (ofTokens ts).moveTo rest = ⟨closed ts, (closed ts).length - rest.length⟩ := rfl

theorem parseExpression_of_run {ts us rest : List Token} {r : Except SyntaxError Expr}
    (hrun : (Rule.expression maxNesting).run (closed ts) = ⟨r, rest⟩)
    (hcut : closed ts = us ++ rest) :
    (ofTokens ts).parseExpression = (r, ⟨closed ts, us.length⟩) := by
  have hlen := congrArg List.length hcut
  rw [List.length_append] at hlen
  rw [parseExpression, ahead_ofTokens, moveTo_ofTokens, hrun]
  dsimp only
  congr 2
  omega

theorem parseExpression_of_derives {ts : List Token} {e : Expr} (h : Derives .expression ts e)
    (hn : e.nesting < maxNesting) (line : Nat) :
    (ofTokens (ts ++ [.eof line])).parseExpression =
      (.ok e, ⟨closed (ts ++ [.eof line]), ts.length⟩) := by
  have hends : Phrase.expression.Ends [.eof line] := by
    intro t ht l _ hj
    cases ht
    cases hj
  have hclosed := closed_append_eof (t := .eof line) ts rfl
  have hrun := (Rule.reads_expression maxNesting _ [.eof line] e).2 ⟨ts, rfl, h, hn, hends⟩
  rw [← hclosed] at hrun
  exact parseExpression_of_run hrun hclosed

theorem rest_ne_nil {ts us rest : List Token} {φ : Phrase} {e : Expr}
    (hus : closed ts = us ++ rest) (hd : Derives φ us e) : rest ≠ [] := by
  intro hr
  obtain ⟨front, t, hf, ht⟩ := closed_last ts
  have hu : us = front ++ [t] := by rw [← hf, hus, hr, List.append_nil]
  exact hd.kind_ne_eof t (by simp [hu]) ht

/-- Reading succeeds with the cursor at `n` iff the tokens before the cursor derive the tree, no
path of the tree is nested too deeply, and no operator stands at the cursor. -/
theorem parseExpression_eq_ok_iff (ts : List Token) (e : Expr) (n : Nat) :
    (ofTokens ts).parseExpression = (.ok e, ⟨closed ts, n⟩) ↔
      Derives .expression ((closed ts).take n) e ∧ e.nesting ≤ maxNesting - 1 ∧
        ∃ t, (closed ts)[n]? = some t ∧ ∀ l : Level, ¬ l.Joins t.kind := by
  have hreads := Rule.reads_expression maxNesting (closed ts)
  have hpos : 0 < maxNesting := by decide
  rw [parseExpression, ahead_ofTokens, moveTo_ofTokens]
  constructor
  · intro h
    obtain ⟨hresult, hparser⟩ := Prod.mk.inj h
    have hn := congrArg Parser.position hparser
    obtain ⟨us, hus, hd, hnest, hend⟩ := (hreads _ e).1 (by rw [← hresult])
    have hlen := congrArg List.length hus
    cases hrest : ((Rule.expression maxNesting).run (closed ts)).rest with
    | nil => exact absurd hrest (rest_ne_nil hus hd)
    | cons t rest =>
      rw [hrest] at hus hend hn hlen
      simp only [List.length_append, List.length_cons] at hn hlen
      have hcut : n = us.length := by omega
      refine ⟨?_, by omega, t, ?_, fun l => hend t rfl l (Nat.zero_le _)⟩
      · rw [hus, hcut, List.take_left]; exact hd
      · rw [hus, hcut]; simp
  · rintro ⟨hd, hnest, t, ht, hop⟩
    have hlt := (List.getElem?_eq_some_iff.1 ht).1
    have hend : Phrase.expression.Ends ((closed ts).drop n) := by
      intro u hu l _
      rw [List.head?_drop, ht] at hu
      cases hu
      exact hop l
    have hrun := (hreads ((closed ts).drop n) e).2
      ⟨(closed ts).take n, (List.take_append_drop n _).symm, hd, by omega, hend⟩
    rw [hrun, List.length_drop]
    congr 2
    omega

end Parser

end LoxExpr
