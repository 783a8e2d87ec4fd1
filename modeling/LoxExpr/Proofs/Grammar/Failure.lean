import LoxExpr.Proofs.Grammar.Acceptance
set_option autoImplicit false

/-!
Where reading fails. The tokens that a rule has taken before it fails begin something that it could
read, but for a last one that is a literal without a value, and the token at which it stops cannot
go on; only the limit on nesting refuses a beginning that the grammar allows. One token of lookahead
decides the failure, so whatever follows that token changes nothing.
-/

namespace LoxExpr

/-- The tokens begin some list that the phrase derives within fewer than `n` nestings. -/
def Phrase.Viable (φ : Phrase) (n : Nat) (us : List Token) : Prop :=
  ∃ vs e, Derives φ (us ++ vs) e ∧ e.nesting < n

namespace Phrase

theorem Viable.of_derives {φ : Phrase} {n : Nat} {us : List Token} {e : Expr}
    (h : Derives φ us e) (hn : e.nesting < n) : φ.Viable n us :=
  ⟨[], e, by rwa [List.append_nil], hn⟩

theorem viable_nil (n : Nat) : Phrase.unary.Viable (n + 1) [] := by
  let t : Token := ⟨.keyword .«nil», "nil", none, 1⟩
  have ht : t.Denotes .nil := .nothing rfl
  exact ⟨[t], .literal .nil, .primary (.leaf ht), Nat.succ_pos n⟩

theorem Viable.first {l : Level} {n : Nat} {us : List Token} (h : l.operand.Viable n us) :
    (Phrase.level l).Viable n us := by
  obtain ⟨vs, e, hd, hn⟩ := h
  exact ⟨vs, e, hd.alone, hn⟩

theorem Viable.links {l : Level} {n : Nat} {us vs : List Token} {left : Expr}
    (hl : Derives l.operand us left) (h : (Phrase.links l left).Viable n vs) :
    (Phrase.level l).Viable n (us ++ vs) := by
  obtain ⟨ws, e, hd, hn⟩ := h
  exact ⟨ws, e, List.append_assoc us vs ws ▸ .level hl hd, hn⟩

theorem Viable.right {l : Level} {n : Nat} {op : Token} {us : List Token} {left : Expr}
    (hop : l.Joins op.kind) (hl : left.nesting < n) (h : l.operand.Viable n us) :
    (Phrase.links l left).Viable n (op :: us) := by
  obtain ⟨vs, e, hd, hn⟩ := h
  have hlink := Derives.link hop hd (.done (e := .binary left op e))
  rw [List.append_nil] at hlink
  exact ⟨vs, .binary left op e, hlink, Nat.max_lt.2 ⟨hl, hn⟩⟩

theorem Viable.link {l : Level} {n : Nat} {op : Token} {us vs : List Token} {left right : Expr}
    (hop : l.Joins op.kind) (hr : Derives l.operand us right)
    (h : (Phrase.links l (.binary left op right)).Viable n vs) :
    (Phrase.links l left).Viable n (op :: (us ++ vs)) := by
  obtain ⟨ws, e, hd, hn⟩ := h
  have hlink := Derives.link hop hr hd
  rw [← List.append_assoc] at hlink
  exact ⟨ws, e, hlink, hn⟩

theorem Viable.expression {n : Nat} {us : List Token}
    (h : (Phrase.level .equality).Viable n us) : Phrase.expression.Viable n us := by
  obtain ⟨vs, e, hd, hn⟩ := h
  exact ⟨vs, e, .expression hd, hn⟩

theorem Viable.sign {n : Nat} {op : Token} {us : List Token} (hop : op.kind.Prefixes)
    (h : Phrase.unary.Viable n us) : Phrase.unary.Viable (n + 1) (op :: us) := by
  obtain ⟨vs, e, hd, hn⟩ := h
  exact ⟨vs, .unary op e, .unary hop hd, Nat.succ_lt_succ hn⟩

theorem Viable.group {n : Nat} {o : Token} {us : List Token} (ho : o.kind = .symbol .leftParen)
    (h : Phrase.expression.Viable n us) : Phrase.unary.Viable (n + 1) (o :: us) := by
  obtain ⟨vs, e, hd, hn⟩ := h
  let c : Token := ⟨.symbol .rightParen, ")", none, 1⟩
  have hgroup := Derives.group (c := c) ho hd rfl
  rw [List.append_assoc] at hgroup
  exact ⟨vs ++ [c], .grouping e, .primary hgroup, Nat.succ_lt_succ hn⟩

end Phrase

/-- How a reader of the phrase within `n` nestings fails after the tokens `us`, before `rest`. -/
inductive Failure (run : List Token → Outcome) (φ : Phrase) (n : Nat) :
    SyntaxError → List Token → List Token → Prop where
  | unusable {reason : SyntaxError.Reason} {us rest : List Token} :
      reason = .expectExpression ∨ reason = .expectRightParen → φ.Viable n us →
      (∀ vs, vs.head? = rest.head? → run (us ++ vs) = .refuse reason vs) →
      Failure run φ n ⟨reason, current rest⟩ us rest
  | tooDeep {us rest : List Token} :
      (∀ vs, run (us ++ vs) = .refuse .tooMuchNesting vs) →
      Failure run φ n ⟨.tooMuchNesting, current rest⟩ us rest
  | valueless {us rest : List Token} {t : Token} :
      t.role = .valueless → φ.Viable n us →
      (∀ vs, run (us ++ t :: vs) = ⟨.error ⟨.expectLiteralValue, t⟩, vs⟩) →
      Failure run φ n ⟨.expectLiteralValue, t⟩ (us ++ [t]) rest

theorem current_congr {ts us : List Token} (h : ts.head? = us.head?) : current ts = current us := by
  cases ts with
  | nil => rw [List.head?_eq_none_iff.1 h.symm]
  | cons t ts =>
    obtain ⟨vs, rfl⟩ := List.head?_eq_some_iff.1 h.symm
    rfl

/-- One token of lookahead decides a failure. -/
theorem Failure.run_append {run : List Token → Outcome} {φ : Phrase} {n : Nat} {e : SyntaxError}
    {us rest vs : List Token} (h : Failure run φ n e us rest) (hvs : vs.head? = rest.head?) :
    run (us ++ vs) = ⟨.error e, vs⟩ := by
  cases h with
  | unusable _ _ hsame => rw [hsame vs hvs, Outcome.refuse, current_congr hvs]
  | tooDeep hsame => rw [hsame vs, Outcome.refuse, current_congr hvs]
  | valueless _ _ hsame =>
    rw [List.append_assoc]
    exact hsame vs

def Blames (run : List Token → Outcome) (φ : Phrase) (n : Nat) : Prop :=
  ∀ ts e rest, run ts = ⟨.error e, rest⟩ →
    ∃ us, ts = us ++ rest ∧ (∀ t ∈ us, t.kind ≠ .eof) ∧ Failure run φ n e us rest

section Passing

variable {run run' : List Token → Outcome} {φ ψ : Phrase} {n m : Nat} (ws : List Token)

/-- A failure that is passed on behind tokens `ws` is one of the reader that passes it on. -/
theorem Failure.behind {e : SyntaxError} {us rest : List Token} (h : Failure run φ n e us rest)
    (hrun : ∀ ts x vs, run ts = ⟨.error x, vs⟩ → run' (ws ++ ts) = ⟨.error x, vs⟩)
    (hviable : ∀ vs, φ.Viable n vs → ψ.Viable m (ws ++ vs)) :
    Failure run' ψ m e (ws ++ us) rest := by
  cases h with
  | unusable hreason hv hsame =>
    refine .unusable hreason (hviable us hv) fun vs hvs => ?_
    rw [List.append_assoc]
    exact hrun _ _ _ (hsame vs hvs)
  | tooDeep hsame =>
    refine .tooDeep fun vs => ?_
    rw [List.append_assoc]
    exact hrun _ _ _ (hsame vs)
  | @valueless us _ t ht hv hsame =>
    rw [← List.append_assoc]
    refine .valueless ht (hviable us hv) fun vs => ?_
    rw [List.append_assoc]
    exact hrun _ _ _ (hsame vs)

theorem Blames.behind {e : SyntaxError} {ts rest : List Token} (h : Blames run φ n)
    (hts : run ts = ⟨.error e, rest⟩) (hws : ∀ t ∈ ws, t.kind ≠ .eof)
    (hrun : ∀ ts x vs, run ts = ⟨.error x, vs⟩ → run' (ws ++ ts) = ⟨.error x, vs⟩)
    (hviable : ∀ vs, φ.Viable n vs → ψ.Viable m (ws ++ vs)) :
    ∃ us, ws ++ ts = us ++ rest ∧ (∀ t ∈ us, t.kind ≠ .eof) ∧ Failure run' ψ m e us rest := by
  obtain ⟨us, rfl, hus, hfail⟩ := h ts e rest hts
  refine ⟨ws ++ us, (List.append_assoc ws us rest).symm, fun t ht => ?_,
    hfail.behind ws hrun hviable⟩
  exact (List.mem_append.1 ht).elim (hws t) (hus t)

end Passing

namespace Rule

theorem blames_deny (φ : Phrase) : Blames deny.run φ 0 := by
  intro ts e rest h
  cases h
  exact ⟨[], rfl, by simp, .tooDeep fun vs => rfl⟩

theorem joins_of_chainFrom_error {l : Level} {p : Rule} {left : Expr} {ts rest : List Token}
    {e : SyntaxError} (h : chainFrom l p left ts = ⟨.error e, rest⟩) :
    ∃ t us, ts = t :: us ∧ l.Joins t.kind := by
  cases ts with
  | nil => rw [chainFrom_nil] at h; cases h
  | cons t us =>
    by_cases hop : l.Joins t.kind
    · exact ⟨t, us, rfl, hop⟩
    · rw [chainFrom_stop p left us hop] at h
      cases h

/-- An operand is read alike before every chain that fails, which begins with an operator. -/
theorem run_append_of_chainFrom_error {l : Level} {p : Rule} {n : Nat} (hr : p.Reads l.operand n)
    {us ts rest : List Token} {left first : Expr} {e : SyntaxError}
    (hd : Derives l.operand us first) (hn : first.nesting < n)
    (h : chainFrom l p left ts = ⟨.error e, rest⟩) :
    p.run (us ++ ts) = ⟨.ok first, ts⟩ := by
  obtain ⟨t, ts, rfl, hop⟩ := joins_of_chainFrom_error h
  exact (hr _ _ _).2 ⟨us, rfl, hd, hn, Phrase.ends_operand_of_joins hop ts⟩

theorem blames_chainFrom {l : Level} {p : Rule} {n : Nat} (hr : p.Reads l.operand n)
    (hp : Blames p.run l.operand n) {left : Expr} (hl : left.nesting < n) :
    Blames (chainFrom l p left) (.links l left) n := by
  intro ts e rest h
  induction left, ts using chainFrom.induct l p with
  | case1 left => rw [chainFrom_nil] at h; cases h
  | case2 left t ts accepts right x hx ih =>
    have hop := Level.accepts_iff_joins.1 accepts
    have hrun : p.run ts = ⟨.ok x, right.rest⟩ := by rw [← hx]
    obtain ⟨us, hus, hd, hn, -⟩ := (hr ts right.rest x).1 hrun
    rw [chainFrom_ok left hop hrun] at h
    obtain ⟨vs, hvs, hends, hfail⟩ := ih (Nat.max_lt.2 ⟨hl, hn⟩) h
    -- The failure lies in the chain behind this operator and its operand.
    refine ⟨t :: (us ++ vs), by simp [hus, hvs], ?_, ?_⟩
    · intro u hu
      rcases List.mem_cons.1 hu with rfl | hu
      · exact hop.ne_eof
      · exact (List.mem_append.1 hu).elim (hd.kind_ne_eof u) (hends u)
    · refine hfail.behind (t :: us) (fun ws y zs hws => ?_) fun ws => .link hop hd
      have hright := run_append_of_chainFrom_error hr hd hn hws
      rw [List.cons_append, chainFrom_ok left hop hright, hws]
  | case3 left t ts accepts right x hx =>
    have hop := Level.accepts_iff_joins.1 accepts
    have hrun : p.run ts = ⟨.error x, right.rest⟩ := by rw [← hx]
    rw [chainFrom_error left hop hrun] at h
    cases h
    exact hp.behind [t] hrun (by simpa using hop.ne_eof)
      (fun us y vs hus => chainFrom_error left hop hus) fun us => .right hop hl
  | case4 left t ts accepts =>
    rw [chainFrom_stop p left ts (mt Level.accepts_iff_joins.2 accepts)] at h
    cases h

theorem blames_chain {l : Level} {p : Rule} {n : Nat} (hr : p.Reads l.operand n)
    (hp : Blames p.run l.operand n) : Blames (chain l p).run (.level l) n := by
  intro ts e rest h
  cases hrun : p.run ts with
  | mk r us =>
    cases r with
    | error x =>
      rw [chain_error hrun] at h
      cases h
      exact hp.behind [] hrun (by simp) (fun us y vs hus => chain_error hus)
        fun us => Phrase.Viable.first
    | ok first =>
      rw [chain_ok hrun] at h
      obtain ⟨vs, rfl, hd, hn, -⟩ := (hr ts us first).1 hrun
      refine (blames_chainFrom hr hp hn).behind vs h hd.kind_ne_eof (fun ws y zs hws => ?_)
        fun ws => .links hd
      rw [chain_ok (run_append_of_chainFrom_error hr hd hn hws), hws]

theorem blames_levels {p : Rule} {n : Nat} (hr : p.Reads .unary n)
    (hp : Blames p.run .unary n) : Blames (levels p).run .expression n := by
  have hfactor := reads_chain (l := .factor) hr
  have hterm := reads_chain (l := .term) hfactor
  have hcomparison := reads_chain (l := .comparison) hterm
  have h := blames_chain (l := .equality) hcomparison (blames_chain hterm
    (blames_chain hfactor (blames_chain hr hp)))
  intro ts e rest hts
  exact h.behind [] hts (by simp) (fun us x vs hus => hus) fun us => .expression

theorem blames_operandOver {p q : Rule} {n : Nat} (hp : Blames p.run .unary n)
    (hr : q.Reads .expression n) (hq : Blames q.run .expression n) :
    Blames (operandOver p q).run .unary (n + 1) := by
  intro ts e rest h
  cases ts with
  | nil =>
    cases h
    refine ⟨[], rfl, by simp, .unusable (.inl rfl) (Phrase.viable_nil n) fun vs hvs => ?_⟩
    rw [List.head?_eq_none_iff.1 hvs]
    rfl
  | cons t ts =>
    have hfirst := h
    rw [operandOver_cons] at h
    cases hrole : t.role with
    | sign =>
      simp only [hrole] at h
      have hop := Token.role_eq_sign_iff.1 hrole
      refine hp.behind [t] (Outcome.map_eq_error h) (by simpa using hop.ne_eof)
        (fun us x vs hus => ?_) fun us => .sign hop
      rw [List.singleton_append, operandOver_cons, hrole]
      simp [hus, Outcome.map_error]
    | opening =>
      simp only [hrole] at h
      have ho := Token.role_eq_opening_iff.1 hrole
      rcases Outcome.close_eq_error h with hrun | ⟨x, hrun, hclose, rfl⟩
      · refine hq.behind [t] hrun (by simp [ho]) (fun us y vs hus => ?_) fun us => .group ho
        rw [List.singleton_append, operandOver_cons, hrole]
        simp [hus, Outcome.close_error]
      · -- Something else stands where the group should be closed, so closing it completes it.
        obtain ⟨us, rfl, hd, hn, hend⟩ := (hr ts rest x).1 hrun
        refine ⟨t :: us, rfl, ?_, .unusable (.inr rfl) (.group ho (.of_derives hd hn)) ?_⟩
        · intro u hu
          rcases List.mem_cons.1 hu with rfl | hu
          · simp [ho]
          · exact hd.kind_ne_eof u hu
        · intro vs hvs
          have hends : Phrase.expression.Ends vs := by rwa [Phrase.Ends, hvs]
          have hinner := (hr (us ++ vs) vs x).2 ⟨us, rfl, hd, hn, hends⟩
          rw [List.cons_append, operandOver_cons, hrole]
          simp only [hinner]
          exact Outcome.close_ok_refuse x (by rwa [hvs])
    | leaf v => simp [hrole] at h
    | valueless =>
      simp only [hrole] at h
      cases h
      have hkind := (Token.role_eq_valueless_iff.1 hrole).1
      refine ⟨[] ++ [t], rfl, ?_, .valueless hrole (Phrase.viable_nil n) fun vs => ?_⟩
      · intro u hu
        obtain rfl := List.mem_singleton.1 hu
        rcases hkind with hk | hk
        · simp [hk]
        · simp [hk]
      · rw [List.nil_append, operandOver_cons, hrole]
    | other =>
      simp only [hrole] at h
      cases h
      refine ⟨[], rfl, by simp, .unusable (.inl rfl) (Phrase.viable_nil n) fun vs hvs => ?_⟩
      obtain ⟨us, rfl⟩ := List.head?_eq_some_iff.1 hvs
      rw [List.nil_append, operandOver_cons, hrole]

theorem blames_operand (n : Nat) : Blames (operand n).run .unary (n + 1) := by
  induction n with
  | zero =>
    exact blames_operandOver (blames_deny .unary) (reads_deny .expression)
      (blames_deny .expression)
  | succ n ih =>
    have hr := reads_operand n
    exact blames_operandOver ih (reads_levels hr) (blames_levels hr ih)

theorem blames_expression (n : Nat) : Blames (expression n).run .expression n := by
  cases n with
  | zero => exact blames_deny .expression
  | succ n => exact blames_levels (reads_operand n) (blames_operand n)

end Rule

end LoxExpr
