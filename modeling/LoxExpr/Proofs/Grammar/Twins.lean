import LoxExpr.Proofs.Grammar.Equations
set_option autoImplicit false

/-!
Two readings side by side. The two lists are one list of pairs of tokens, and the tokens of a pair
are alike in kind and in whether they carry a value. Then the rules do the same on both sides: they
stop before the same pair, either with an error that has one reason and is bound to the two tokens
of one pair, or with two trees of one shape whose parts come from the pairs that were taken.
-/

namespace LoxExpr

structure Token.Alike (s t : Token) : Prop where
  kind_eq : s.kind = t.kind
  isSome_eq : s.literal.isSome = t.literal.isSome

/-- The trees have one shape and are made of the pairs, each used once and in order: an operator is
a token of its pair, a value what a token of its pair denotes, and a group stands between its
parentheses. -/
inductive Expr.Twins : List (Token × Token) → Expr → Expr → Prop where
  | leaf {s t : Token} {v w : Literal} :
      s.Denotes v → t.Denotes w → Twins [(s, t)] (.literal v) (.literal w)
  | grouping {o o' c c' : Token} {zs : List (Token × Token)} {e f : Expr} :
      o.kind = .symbol .leftParen → Twins zs e f → c.kind = .symbol .rightParen →
      Twins ((o, o') :: (zs ++ [(c, c')])) (.grouping e) (.grouping f)
  | unary {op op' : Token} {zs : List (Token × Token)} {e f : Expr} :
      Twins zs e f → Twins ((op, op') :: zs) (.unary op e) (.unary op' f)
  | binary {op op' : Token} {ys zs : List (Token × Token)} {l r l' r' : Expr} :
      Twins ys l l' → Twins zs r r' →
      Twins (ys ++ (op, op') :: zs) (.binary l op r) (.binary l' op' r')

/-- What is read on either side: trees from the pairs that are taken, an error at what is left, or
one at the last pair that is taken. -/
inductive Outcome.Twins (zs : List (Token × Token)) : Outcome → Outcome → Prop where
  | tree (ys rest : List (Token × Token)) {e f : Expr} : zs = ys ++ rest → Expr.Twins ys e f →
      Twins zs ⟨.ok e, rest.map Prod.fst⟩ ⟨.ok f, rest.map Prod.snd⟩
  | refused (ys rest : List (Token × Token)) {reason : SyntaxError.Reason} : zs = ys ++ rest →
      reason ≠ .expectLiteralValue →
      Twins zs (refuse reason (rest.map Prod.fst)) (refuse reason (rest.map Prod.snd))
  | valueless (ys rest : List (Token × Token)) {s t : Token} : zs = ys ++ (s, t) :: rest →
      Twins zs ⟨.error ⟨.expectLiteralValue, s⟩, rest.map Prod.fst⟩
        ⟨.error ⟨.expectLiteralValue, t⟩, rest.map Prod.snd⟩

def AllAlike (zs : List (Token × Token)) : Prop := ∀ z ∈ zs, z.1.Alike z.2

namespace AllAlike

variable {z : Token × Token} {ys zs : List (Token × Token)}

theorem head (h : AllAlike (z :: zs)) : z.1.Alike z.2 := h z List.mem_cons_self

theorem tail (h : AllAlike (z :: zs)) : AllAlike zs := fun y hy => h y (List.mem_cons_of_mem z hy)

theorem right (h : AllAlike (ys ++ zs)) : AllAlike zs := fun y hy =>
  h y (List.mem_append_right ys hy)

theorem drop (h : AllAlike zs) (n : Nat) : AllAlike (zs.drop n) := fun y hy =>
  h y (List.mem_of_mem_drop hy)

end AllAlike

namespace Outcome

variable {zs : List (Token × Token)} {o p : Outcome}

theorem Twins.cases_result (h : Twins zs o p) :
    (∃ ys rest e f, zs = ys ++ rest ∧ Expr.Twins ys e f ∧ o = ⟨.ok e, rest.map Prod.fst⟩ ∧
      p = ⟨.ok f, rest.map Prod.snd⟩) ∨
    ∃ x y us vs, o = ⟨.error x, us⟩ ∧ p = ⟨.error y, vs⟩ ∧
      ∀ ws, Twins (ws ++ zs) ⟨.error x, us⟩ ⟨.error y, vs⟩ := by
  cases h with
  | tree ys rest hcut htwins => exact .inl ⟨_, _, _, _, hcut, htwins, rfl, rfl⟩
  | refused ys rest hcut hreason =>
    refine .inr ⟨_, _, _, _, rfl, rfl, fun ws => ?_⟩
    exact .refused (ws ++ ys) rest (by rw [hcut, List.append_assoc]) hreason
  | valueless ys rest hcut =>
    refine .inr ⟨_, _, _, _, rfl, rfl, fun ws => ?_⟩
    exact .valueless (ws ++ ys) rest (by rw [hcut, List.append_assoc])

theorem Twins.map_unary {s t : Token} (h : Twins zs o p) :
    Twins ((s, t) :: zs) (o.map (.unary s)) (p.map (.unary t)) := by
  rcases h.cases_result with
    ⟨ys, rest, e, f, rfl, htwins, rfl, rfl⟩ | ⟨x, y, us, vs, rfl, rfl, herror⟩
  · rw [map_ok, map_ok]
    exact .tree ((s, t) :: ys) rest rfl (.unary htwins)
  · rw [map_error, map_error]
    exact herror [(s, t)]

theorem Twins.close {s t : Token} (h : Twins zs o p) (hs : s.kind = .symbol .leftParen)
    (hzs : AllAlike zs) : Twins ((s, t) :: zs) o.close p.close := by
  rcases h.cases_result with
    ⟨ys, rest, e, f, rfl, htwins, rfl, rfl⟩ | ⟨x, y, us, vs, rfl, rfl, herror⟩
  · cases rest with
    | nil => exact .refused ((s, t) :: ys) [] rfl (by decide)
    | cons z rest =>
      obtain ⟨c, c'⟩ := z
      have hkind : c.kind = c'.kind := hzs.right.head.kind_eq
      rw [List.map_cons, List.map_cons]
      by_cases hc : c.kind = .symbol .rightParen
      · rw [close_ok_cons e _ hc, close_ok_cons f _ (hkind ▸ hc)]
        exact .tree ((s, t) :: (ys ++ [(c, c')])) rest (by simp) (.grouping hs htwins hc)
      · rw [close_ok_refuse e (by simpa using hc), close_ok_refuse f (by simpa [← hkind] using hc)]
        exact .refused ((s, t) :: ys) ((c, c') :: rest) rfl (by decide)
  · rw [close_error, close_error]
    exact herror [(s, t)]

end Outcome

inductive Role.Twins : Role → Role → Prop where
  | sign : Twins .sign .sign
  | opening : Twins .opening .opening
  | leaf {v w : Literal} : Twins (.leaf v) (.leaf w)
  | valueless : Twins .valueless .valueless
  | other : Twins .other .other

theorem Token.Alike.role {s t : Token} (h : s.Alike t) : Role.Twins s.role t.role := by
  obtain ⟨kind, lexeme, literal, line⟩ := s
  obtain ⟨kind', lexeme', literal', line'⟩ := t
  obtain ⟨hkind, hvalue⟩ := h
  obtain rfl : kind = kind' := hkind
  cases kind with
  | symbol s => cases s with
    | bang => exact .sign
    | minus => exact .sign
    | leftParen => exact .opening
    | _ => exact .other
  | keyword k => cases k with
    | «true» => exact .leaf
    | «false» => exact .leaf
    | «nil» => exact .leaf
    | _ => exact .other
  | number => match literal, literal', hvalue with
    | none, none, _ => exact .valueless
    | some _, some _, _ => exact .leaf
  | string => match literal, literal', hvalue with
    | none, none, _ => exact .valueless
    | some _, some _, _ => exact .leaf
  | identifier => exact .other
  | eof => exact .other

namespace Rule

/-- The rule does the same on both sides of pairs of tokens that are alike. -/
def Uniform (p : Rule) : Prop :=
  ∀ zs, AllAlike zs → Outcome.Twins zs (p.run (zs.map Prod.fst)) (p.run (zs.map Prod.snd))

theorem uniform_deny : deny.Uniform := fun zs _ => .refused [] zs rfl (by decide)

theorem uniform_chainFrom {l : Level} {p : Rule} (hp : p.Uniform) {ys zs : List (Token × Token)}
    {left left' : Expr} (hleft : Expr.Twins ys left left') (hzs : AllAlike zs) :
    Outcome.Twins (ys ++ zs) (chainFrom l p left (zs.map Prod.fst))
      (chainFrom l p left' (zs.map Prod.snd)) := by
  -- On the number of pairs, since after an operand the chain goes on where the operand stopped.
  induction hn : zs.length using Nat.strongRecOn generalizing ys zs left left' with
  | ind n ih =>
    cases zs with
    | nil =>
      rw [List.map_nil, List.map_nil, chainFrom_nil, chainFrom_nil]
      exact .tree ys [] rfl hleft
    | cons z zs =>
      obtain ⟨op, op'⟩ := z
      have hkind : op.kind = op'.kind := hzs.head.kind_eq
      rw [List.map_cons, List.map_cons]
      dsimp only
      by_cases hop : l.Joins op.kind
      · have hop' : l.Joins op'.kind := hkind ▸ hop
        rcases (hp zs hzs.tail).cases_result with
          ⟨us, rest, e, f, rfl, hright, he, hf⟩ | ⟨x, y, us, vs, hx, hy, herror⟩
        · rw [chainFrom_ok left hop he, chainFrom_ok left' hop' hf]
          have hlen : rest.length < n := by
            rw [← hn, List.length_cons, List.length_append]
            omega
          have hchain : Expr.Twins (ys ++ (op, op') :: us) (.binary left op e)
              (.binary left' op' f) := .binary hleft hright
          have hrest := ih rest.length hlen hchain hzs.tail.right rfl
          rwa [List.append_assoc, List.cons_append] at hrest
        · rw [chainFrom_error left hop hx, chainFrom_error left' hop' hy]
          have hbehind := herror (ys ++ [(op, op')])
          rwa [List.append_assoc, List.singleton_append] at hbehind
      · rw [chainFrom_stop p left _ hop, chainFrom_stop p left' _ (hkind ▸ hop)]
        exact .tree ys ((op, op') :: zs) rfl hleft

theorem uniform_chain {l : Level} {p : Rule} (hp : p.Uniform) : (chain l p).Uniform := by
  intro zs hzs
  rcases (hp zs hzs).cases_result with
    ⟨ys, rest, e, f, rfl, hfirst, he, hf⟩ | ⟨x, y, us, vs, hx, hy, herror⟩
  · rw [chain_ok he, chain_ok hf]
    exact uniform_chainFrom hp hfirst hzs.right
  · rw [chain_error hx, chain_error hy]
    exact herror []

theorem uniform_levels {p : Rule} (hp : p.Uniform) : (levels p).Uniform :=
  uniform_chain (uniform_chain (uniform_chain (uniform_chain hp)))

theorem uniform_operandOver {p q : Rule} (hp : p.Uniform) (hq : q.Uniform) :
    (operandOver p q).Uniform := by
  intro zs hzs
  cases zs with
  | nil => exact .refused [] [] rfl (by decide)
  | cons z zs =>
    obtain ⟨s, t⟩ := z
    have hroles : Role.Twins s.role t.role := hzs.head.role
    rw [List.map_cons, List.map_cons, operandOver_cons, operandOver_cons]
    dsimp only
    generalize hs : s.role = a at hroles
    generalize ht : t.role = b at hroles
    cases hroles with
    | sign => exact (hp zs hzs.tail).map_unary
    | opening => exact (hq zs hzs.tail).close (Token.role_eq_opening_iff.1 hs) hzs.tail
    | leaf =>
      exact .tree [(s, t)] zs rfl
        (.leaf (Token.role_eq_leaf_iff.1 hs) (Token.role_eq_leaf_iff.1 ht))
    | valueless => exact .valueless [] zs rfl
    | other => exact .refused [] ((s, t) :: zs) rfl (by decide)

theorem uniform_operand (n : Nat) : (operand n).Uniform := by
  induction n with
  | zero => exact uniform_operandOver uniform_deny uniform_deny
  | succ n ih => exact uniform_operandOver ih (uniform_levels ih)

theorem uniform_expression (n : Nat) : (expression n).Uniform := by
  cases n with
  | zero => exact uniform_deny
  | succ n => exact uniform_levels (uniform_operand n)

end Rule

end LoxExpr
