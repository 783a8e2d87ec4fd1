import Mathlib.Logic.Relation
import LoxExpr.Proofs.Grammar.Equations
set_option autoImplicit false

/-!
Recursive descent in steps, without any bound on nesting: one call for each rule of the grammar,
and a frame for each call that waits for the answer of a call of its own. A frame is pending if it
belongs to a group or a prefix operator that is not finished. The rules of every nesting follow
these steps up to the step that makes one opener too many pending.
-/

namespace LoxExpr

/-- A call that waits for an answer. -/
inductive Frame where
  | expression
  | first (l : Level)
  | right (l : Level) (left : Expr) (op : Token)
  | sign (op : Token)
  | unary
  | group
  deriving DecidableEq

inductive Task where
  | call (φ : Phrase)
  | answer (result : Except SyntaxError Expr)

/-- A state of the descent; the call that waits for the current one stands first. -/
structure Descent where
  task : Task
  frames : List Frame
  ahead : List Token

/-- Whether the call has taken an opener that it has not finished. -/
def Frame.isPending : Frame → Bool
  | sign _ => true
  | group => true
  | _ => false

def pendings (k : List Frame) : Nat := k.countP Frame.isPending

@[simp] theorem pendings_cons (f : Frame) (k : List Frame) :
    pendings (f :: k) = pendings k + if f.isPending then 1 else 0 := List.countP_cons

theorem pendings_le_cons (f : Frame) (k : List Frame) : pendings k ≤ pendings (f :: k) := by simp

namespace Descent

def pending (s : Descent) : Nat := pendings s.frames

def start (ts : List Token) : Descent := ⟨.call .expression, [], ts⟩

def finish (o : Outcome) : Descent := ⟨.answer o.result, [], o.rest⟩

def callUnary (k : List Frame) : List Token → Descent
  | [] => ⟨.call .primary, .unary :: k, []⟩
  | t :: ts =>
    if t.role = .sign then ⟨.call .unary, .sign t :: k, ts⟩
    else ⟨.call .primary, .unary :: k, t :: ts⟩

def callPrimary (k : List Frame) : List Token → Descent
  | [] => ⟨.answer (.error ⟨.expectExpression, current []⟩), k, []⟩
  | t :: ts => match t.role with
    | .opening => ⟨.call .expression, .group :: k, ts⟩
    | .leaf v => ⟨.answer (.ok (.literal v)), k, ts⟩
    | .valueless => ⟨.answer (.error ⟨.expectLiteralValue, t⟩), k, ts⟩
    | _ => ⟨.answer (.error ⟨.expectExpression, t⟩), k, t :: ts⟩

def callLinks (l : Level) (left : Expr) (k : List Frame) : List Token → Descent
  | [] => ⟨.answer (.ok left), k, []⟩
  | t :: ts =>
    if l.accepts t.kind then ⟨.call l.operand, .right l left t :: k, ts⟩
    else ⟨.answer (.ok left), k, t :: ts⟩

def resume (e : Expr) (k : List Frame) (ts : List Token) : Frame → Descent
  | .expression => ⟨.answer (.ok e), k, ts⟩
  | .first l => ⟨.call (.links l e), k, ts⟩
  | .right l left op => ⟨.call (.links l (.binary left op e)), k, ts⟩
  | .sign op => ⟨.answer (.ok (.unary op e)), k, ts⟩
  | .unary => ⟨.answer (.ok e), k, ts⟩
  | .group =>
    let o := Outcome.closeGroup e ts
    ⟨.answer o.result, k, o.rest⟩

def step : Descent → Option Descent
  | ⟨.call .expression, k, ts⟩ => some ⟨.call (.level .equality), .expression :: k, ts⟩
  | ⟨.call (.level l), k, ts⟩ => some ⟨.call l.operand, .first l :: k, ts⟩
  | ⟨.call (.links l left), k, ts⟩ => some (callLinks l left k ts)
  | ⟨.call .unary, k, ts⟩ => some (callUnary k ts)
  | ⟨.call .primary, k, ts⟩ => some (callPrimary k ts)
  | ⟨.answer _, [], _⟩ => none
  | ⟨.answer (.ok e), f :: k, ts⟩ => some (resume e k ts f)
  | ⟨.answer (.error e), _ :: k, ts⟩ => some ⟨.answer (.error e), k, ts⟩

theorem step_links {l : Level} {t : Token} (left : Expr) (k : List Frame) (ts : List Token)
    (h : l.accepts t.kind = true) : step ⟨.call (.links l left), k, t :: ts⟩ =
      some ⟨.call l.operand, .right l left t :: k, ts⟩ := by
  simp [step, callLinks, h]

theorem step_sign {t : Token} (k : List Frame) (ts : List Token) (h : t.role = .sign) :
    step ⟨.call .unary, k, t :: ts⟩ = some ⟨.call .unary, .sign t :: k, ts⟩ := by
  simp [step, callUnary, h]

theorem step_unary {t : Token} (k : List Frame) (ts : List Token) (h : t.role ≠ .sign) :
    step ⟨.call .unary, k, t :: ts⟩ = some ⟨.call .primary, .unary :: k, t :: ts⟩ := by
  simp [step, callUnary, h]

theorem step_opening {t : Token} (k : List Frame) (ts : List Token) (h : t.role = .opening) :
    step ⟨.call .primary, k, t :: ts⟩ = some ⟨.call .expression, .group :: k, ts⟩ := by
  simp [step, callPrimary, h]

def Reaches : Descent → Descent → Prop := Relation.ReflTransGen fun s s' => s.step = some s'

/-- Steps of which each is made with fewer than `n` openers pending. -/
def Below (n : Nat) : Descent → Descent → Prop :=
  Relation.ReflTransGen fun s s' => s.pending < n ∧ s.step = some s'

/-- The step to `s'` takes the opener that is the first to make `n` pending. -/
structure FirstOpens (n : Nat) (ts : List Token) (s s' : Descent) : Prop where
  reached : Below n (start ts) s
  below : s.pending < n
  step_eq : s.step = some s'
  pending_eq : s'.pending = n

theorem Below.reaches {n : Nat} {s s' : Descent} (h : Below n s s') : Reaches s s' :=
  Relation.ReflTransGen.mono (fun _ _ hs => hs.2) _ _ h

/-- Either the step takes one opener, which is pending from then on, or it makes no call pending;
no step gives a token back. -/
theorem step_pending {s s' : Descent} (h : s.step = some s') :
    (∃ t, s.ahead = t :: s'.ahead ∧ (t.role = .sign ∨ t.role = .opening) ∧
      s'.pending = s.pending + 1) ∨
    (s'.pending ≤ s.pending ∧ s'.ahead <:+ s.ahead) := by
  obtain ⟨task, k, ts⟩ := s
  cases task with
  | call φ =>
    cases φ with
    | expression =>
      cases h; exact .inr ⟨by simp [pending, Frame.isPending], List.suffix_refl _⟩
    | level l => cases h; exact .inr ⟨by simp [pending, Frame.isPending], List.suffix_refl _⟩
    | links l left =>
      cases h
      cases ts with
      | nil => exact .inr ⟨Nat.le_refl _, List.suffix_refl _⟩
      | cons t ts =>
        by_cases ht : l.accepts t.kind <;> simp [callLinks, ht, pending, Frame.isPending]
    | unary =>
      cases h
      cases ts with
      | nil => exact .inr ⟨by simp [callUnary, pending, Frame.isPending], List.suffix_refl _⟩
      | cons t ts => by_cases ht : t.role = .sign <;> simp [callUnary, ht, pending, Frame.isPending]
    | primary =>
      cases h
      cases ts with
      | nil => exact .inr ⟨Nat.le_refl _, List.suffix_refl _⟩
      | cons t ts => cases ht : t.role <;> simp [callPrimary, ht, pending, Frame.isPending]
  | answer r =>
    right
    cases k with
    | nil => cases h
    | cons f k =>
      have hf := pendings_le_cons f k
      cases r with
      | error e => cases h; exact ⟨hf, List.suffix_refl _⟩
      | ok e =>
        cases h
        cases f with
        | group => exact ⟨hf, Outcome.closeGroup_suffix e ts⟩
        | _ => exact ⟨hf, List.suffix_refl _⟩

theorem Reaches.suffix {s s' : Descent} (h : Reaches s s') : s'.ahead <:+ s.ahead := by
  induction h with
  | refl => exact List.suffix_refl _
  | tail _ hs ih =>
    rcases step_pending hs with ⟨t, ht, -, -⟩ | ⟨-, hl⟩
    · exact (List.suffix_cons t _).trans (ht ▸ ih)
    · exact hl.trans ih

theorem Reaches.pending_le {s s' : Descent} (h : Reaches s s') :
    s'.pending + s'.ahead.length ≤ s.pending + s.ahead.length := by
  induction h with
  | refl => exact Nat.le_refl _
  | tail _ hs ih =>
    rcases step_pending hs with ⟨t, ht, -, hp⟩ | ⟨hp, hl⟩
    · rw [ht, List.length_cons] at ih
      omega
    · have := hl.length_le
      omega

/-- What a run below `n` openers shows of a rule that was called with the frames `k` waiting: its
outcome, or that it refuses at the state in which `n` openers are pending. -/
def Leads (n : Nat) (s : Descent) (k : List Frame) (o : Outcome) : Prop :=
  (pendings k < n ∧ Below n s ⟨.answer o.result, k, o.rest⟩) ∨
    ∃ s', Below n s s' ∧ s'.pending = n ∧ o = .refuse .tooMuchNesting s'.ahead

theorem Leads.answer {n : Nat} {k : List Frame} (o : Outcome) (hk : pendings k < n) :
    Leads n ⟨.answer o.result, k, o.rest⟩ k o := .inl ⟨hk, .refl⟩

theorem Leads.step {n : Nat} {s s' : Descent} {k : List Frame} {o : Outcome}
    (hp : s.pending < n) (hs : s.step = some s') (h : Leads n s' k o) : Leads n s k o := by
  rcases h with ⟨hk, h⟩ | ⟨t, h, ht⟩
  · exact .inl ⟨hk, .head ⟨hp, hs⟩ h⟩
  · exact .inr ⟨t, .head ⟨hp, hs⟩ h, ht⟩

/-- A call that waits goes on with the outcome it gets, and with a refusal it can only refuse. -/
theorem Leads.bind {n : Nat} {s : Descent} {k k' : List Frame} {o o' : Outcome}
    (h : Leads n s k' o)
    (hanswer : pendings k' < n → Leads n ⟨.answer o.result, k', o.rest⟩ k o')
    (hrefuse : ∀ us, o = .refuse .tooMuchNesting us → o' = .refuse .tooMuchNesting us) :
    Leads n s k o' := by
  rcases h with ⟨hk, h⟩ | ⟨t, h, ht, ho⟩
  · rcases hanswer hk with ⟨hk', ha⟩ | ⟨t, ha, ht⟩
    · exact .inl ⟨hk', h.trans ha⟩
    · exact .inr ⟨t, h.trans ha, ht⟩
  · exact .inr ⟨t, h, ht, hrefuse _ ho⟩

theorem Leads.error {n : Nat} {f : Frame} {k : List Frame} {e : SyntaxError} {ts : List Token}
    (hp : pendings (f :: k) < n) : Leads n ⟨.answer (.error e), f :: k, ts⟩ k ⟨.error e, ts⟩ :=
  .step hp rfl (.answer ⟨.error e, ts⟩ (Nat.lt_of_le_of_lt (pendings_le_cons f k) hp))

theorem Leads.pass {n : Nat} {f : Frame} {k : List Frame} (o : Outcome)
    (hf : ∀ e, resume e k o.rest f = ⟨.answer (.ok e), k, o.rest⟩) (hp : pendings (f :: k) < n) :
    Leads n ⟨.answer o.result, f :: k, o.rest⟩ k o := by
  obtain ⟨r, rest⟩ := o
  cases r with
  | error e => exact .error hp
  | ok e =>
    have hk := Nat.lt_of_le_of_lt (pendings_le_cons f k) hp
    exact .step hp (congrArg some (hf e)) (.answer ⟨.ok e, rest⟩ hk)

/-- The rule follows the descent as long as fewer than `n` openers are pending besides those that
were pending when it was called. -/
def Follows (p : Rule) (φ : Phrase) (n : Nat) : Prop :=
  ∀ (k : List Frame) (ts : List Token), Leads (pendings k + n) ⟨.call φ, k, ts⟩ k (p.run ts)

theorem follows_deny (φ : Phrase) : Follows .deny φ 0 :=
  fun k ts => .inr ⟨⟨.call φ, k, ts⟩, .refl, rfl, rfl⟩

theorem leads_chainFrom {l : Level} {p : Rule} {n : Nat} (hp : Follows p l.operand n) (hn : 0 < n)
    (left : Expr) (k : List Frame) (ts : List Token) :
    Leads (pendings k + n) ⟨.call (.links l left), k, ts⟩ k (Rule.chainFrom l p left ts) := by
  have hk : ∀ x, (⟨.call (.links l x), k, ts⟩ : Descent).pending < pendings k + n :=
    fun _ => Nat.lt_add_of_pos_right hn
  induction left, ts using Rule.chainFrom.induct l p with
  | case1 left =>
    rw [Rule.chainFrom_nil]
    exact .step (hk left) rfl (.answer ⟨.ok left, []⟩ (hk left))
  | case2 left t ts accepts right e he ih =>
    have hrun : p.run ts = ⟨.ok e, right.rest⟩ := by rw [← he]
    have hcall := hp (.right l left t :: k) ts
    rw [hrun] at hcall
    rw [Rule.chainFrom_ok left (Level.accepts_iff_joins.1 accepts) hrun]
    refine .step (hk left) (step_links left k ts accepts) (hcall.bind ?_ ?_)
    · exact fun h => .step h rfl (ih hk)
    · intro us h; cases h
  | case3 left t ts accepts right e he =>
    have hrun : p.run ts = ⟨.error e, right.rest⟩ := by rw [← he]
    have hcall := hp (.right l left t :: k) ts
    rw [hrun] at hcall
    rw [Rule.chainFrom_error left (Level.accepts_iff_joins.1 accepts) hrun]
    refine .step (hk left) (step_links left k ts accepts) (hcall.bind ?_ ?_)
    · exact .error
    · exact fun us h => h
  | case4 left t ts accepts =>
    rw [Rule.chainFrom_stop p left ts (mt Level.accepts_iff_joins.2 accepts)]
    refine .step (hk left) ?_ (.answer ⟨.ok left, t :: ts⟩ (hk left))
    simp [step, callLinks, accepts]

theorem follows_chain {l : Level} {p : Rule} {n : Nat} (hp : Follows p l.operand n) (hn : 0 < n) :
    Follows (.chain l p) (.level l) n := by
  intro k ts
  have hk : pendings k < pendings k + n := Nat.lt_add_of_pos_right hn
  have hcall := hp (.first l :: k) ts
  refine .step hk rfl ?_
  cases hrun : p.run ts with
  | mk r rest =>
    rw [hrun] at hcall
    cases r with
    | error e =>
      rw [Rule.chain_error hrun]
      exact hcall.bind .error (fun us h => h)
    | ok e =>
      rw [Rule.chain_ok hrun]
      refine hcall.bind (fun h => .step h rfl (leads_chainFrom hp hn e k rest)) ?_
      intro us h; cases h

theorem follows_levels {p : Rule} {n : Nat} (hp : Follows p .unary n) (hn : 0 < n) :
    Follows (.levels p) .expression n := by
  intro k ts
  have hk : pendings k < pendings k + n := Nat.lt_add_of_pos_right hn
  have h : Follows (.levels p) (.level .equality) n :=
    follows_chain (l := .equality) (follows_chain (l := .comparison) (follows_chain (l := .term)
      (follows_chain (l := .factor) hp hn) hn) hn) hn
  exact .step hk rfl ((h (.expression :: k) ts).bind (.pass _ fun _ => rfl) fun us h => h)

theorem follows_operandOver {p q : Rule} {n : Nat} (hp : Follows p .unary n)
    (hq : Follows q .expression n) : Follows (.operandOver p q) .unary (n + 1) := by
  intro k ts
  have hk : pendings k < pendings k + (n + 1) := Nat.lt_add_of_pos_right (Nat.succ_pos n)
  have hpass (o : Outcome) : Leads _ ⟨.answer o.result, .unary :: k, o.rest⟩ k o :=
    .pass o (fun _ => rfl) hk
  cases ts with
  | nil => exact .step hk rfl (.step hk rfl (hpass (.refuse .expectExpression [])))
  | cons t ts =>
    rw [Rule.operandOver_cons]
    cases hrole : t.role with
    | sign =>
      have hcall := hp (.sign t :: k) ts
      have hpend : pendings (.sign t :: k) + n = pendings k + (n + 1) := by
        simp [Frame.isPending]; omega
      rw [hpend] at hcall
      refine .step hk (step_sign k ts hrole) (hcall.bind ?_ ?_)
      · cases hrun : p.run ts with
        | mk r rest =>
          cases r with
          | error e => exact .error
          | ok e => exact fun h => .step h rfl (.answer ⟨.ok (.unary t e), rest⟩ hk)
      · intro us h; rw [h]; rfl
    | opening =>
      have hcall := hq (.group :: .unary :: k) ts
      have hpend : pendings (.group :: .unary :: k) + n = pendings k + (n + 1) := by
        simp [Frame.isPending]; omega
      rw [hpend] at hcall
      refine .step hk (step_unary k ts (by simp [hrole])) (.step hk (step_opening _ ts hrole)
        (hcall.bind ?_ ?_))
      · cases hrun : q.run ts with
        | mk r rest =>
          cases r with
          | error e => exact fun h => .step h rfl (.error hk)
          | ok e => exact fun h => .step h rfl (hpass (Outcome.closeGroup e rest))
      · intro us h; rw [h]; rfl
    | leaf v =>
      refine .step hk (step_unary k ts (by simp [hrole]))
        (.step hk ?_ (hpass ⟨.ok (.literal v), ts⟩))
      simp [step, callPrimary, hrole]
    | valueless =>
      refine .step hk (step_unary k ts (by simp [hrole]))
        (.step hk ?_ (hpass ⟨.error ⟨.expectLiteralValue, t⟩, ts⟩))
      simp [step, callPrimary, hrole]
    | other =>
      refine .step hk (step_unary k ts (by simp [hrole]))
        (.step hk ?_ (hpass (.refuse .expectExpression (t :: ts))))
      simp [step, callPrimary, hrole, Outcome.refuse, current]

theorem follows_operand (n : Nat) : Follows (.operand n) .unary (n + 1) := by
  induction n with
  | zero => exact follows_operandOver (follows_deny .unary) (follows_deny .expression)
  | succ n ih => exact follows_operandOver ih (follows_levels ih (Nat.succ_pos n))

theorem follows_expression (n : Nat) : Follows (.expression n) .expression n := by
  cases n with
  | zero => exact follows_deny .expression
  | succ n => exact follows_levels (follows_operand n) (Nat.succ_pos n)

end Descent

end LoxExpr
