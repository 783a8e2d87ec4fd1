import LoxExpr.Proofs.Grammar.Failure
set_option autoImplicit false

namespace LoxExpr

/-- Every operator in the tree is one of the tokens, and every value is what one of them denotes. -/
inductive Expr.MadeOf (ts : List Token) : Expr → Prop where
  | literal {t : Token} {v : Literal} : t ∈ ts → t.Denotes v → MadeOf ts (.literal v)
  | grouping {e : Expr} : MadeOf ts e → MadeOf ts (.grouping e)
  | unary {op : Token} {e : Expr} : op ∈ ts → MadeOf ts e → MadeOf ts (.unary op e)
  | binary {op : Token} {l r : Expr} :
      MadeOf ts l → op ∈ ts → MadeOf ts r → MadeOf ts (.binary l op r)

theorem Expr.MadeOf.mono {ts us : List Token} {e : Expr} (h : e.MadeOf ts) (hsub : ts ⊆ us) :
    e.MadeOf us := by
  induction h with
  | literal ht hv => exact .literal (hsub ht) hv
  | grouping _ ih => exact .grouping ih
  | unary hop _ ih => exact .unary (hsub hop) ih
  | binary _ hop _ ihl ihr => exact .binary ihl (hsub hop) ihr

/-- A property that passes from the parts of a tree to the tree holds of every derived tree, if what
stands to the left of a repetition has it. -/
theorem Derives.tree_induction {Q : Expr → Prop} {ts : List Token}
    (literal : ∀ {t : Token} {v : Literal}, t ∈ ts → t.Denotes v → Q (.literal v))
    (grouping : ∀ {e : Expr}, Q e → Q (.grouping e))
    (unary : ∀ {op : Token} {e : Expr}, op ∈ ts → op.kind.Prefixes → Q e → Q (.unary op e))
    (binary : ∀ {l : Level} {op : Token} {left right : Expr},
      Q left → op ∈ ts → l.Joins op.kind → Q right → Q (.binary left op right))
    {φ : Phrase} {us : List Token} {e : Expr} (h : Derives φ us e) (hus : us ⊆ ts)
    (hleft : ∀ l left, φ = .links l left → Q left) : Q e := by
  induction h with
  | expression _ ih => exact ih hus (by intro l left h; cases h)
  | @level l vs ws first e hfirst _ ih₁ ih₂ =>
    obtain ⟨hvs, hws⟩ := List.append_subset.1 hus
    refine ih₂ hws fun m left hm => ?_
    obtain ⟨rfl, rfl⟩ := Phrase.links.inj hm
    exact ih₁ hvs (by intro m left h; cases l <;> cases h)
  | done => exact hleft _ _ rfl
  | @link l op vs ws left right e hjoins hright _ ih₁ ih₂ =>
    obtain ⟨hop, hrest⟩ := List.cons_subset.1 hus
    obtain ⟨hvs, hws⟩ := List.append_subset.1 hrest
    refine ih₂ hws fun m x hm => ?_
    obtain ⟨rfl, rfl⟩ := Phrase.links.inj hm
    exact binary (hleft _ _ rfl) hop hjoins (ih₁ hvs (by intro m x h; cases l <;> cases h))
  | unary hprefix _ ih =>
    obtain ⟨hop, hrest⟩ := List.cons_subset.1 hus
    exact unary hop hprefix (ih hrest (by intro l left h; cases h))
  | primary _ ih => exact ih hus (by intro l left h; cases h)
  | leaf hv => exact literal (hus List.mem_cons_self) hv
  | @group o c vs e _ _ _ ih =>
    obtain ⟨-, hrest⟩ := List.cons_subset.1 hus
    obtain ⟨hvs, -⟩ := List.append_subset.1 hrest
    exact grouping (ih hvs (by intro l left h; cases h))

/-- What stands to the left of a repetition is made of tokens from before it. -/
theorem Derives.madeOf_of_subset {φ : Phrase} {us ts : List Token} {e : Expr} (h : Derives φ us e)
    (hus : us ⊆ ts) (hleft : ∀ l left, φ = .links l left → left.MadeOf ts) : e.MadeOf ts :=
  h.tree_induction .literal .grouping (fun hop _ he => .unary hop he)
    (fun hl hop _ hr => .binary hl hop hr) hus hleft

/-- Of a list in which no end of the text stands before `t`, only tokens from before `t` can be
taken without taking an end of the text. -/
theorem append_eq_append_eof {us rest front behind : List Token} {t : Token} (ht : t.kind = .eof)
    (hus : ∀ u ∈ us, u.kind ≠ .eof) (h : front ++ t :: behind = us ++ rest) :
    ∃ left, front = us ++ left ∧ rest = left ++ t :: behind := by
  rcases List.append_eq_append_iff.1 h with ⟨vs, rfl, hvs⟩ | ⟨left, rfl, hrest⟩
  · cases vs with
    | nil => exact ⟨[], by simp, by simpa using hvs.symm⟩
    | cons v vs =>
      obtain ⟨rfl, -⟩ := List.cons.inj hvs
      exact absurd ht (hus _ (by simp))
  · exact ⟨left, rfl, hrest⟩

theorem head?_append_cons (left behind behind' : List Token) (t : Token) :
    (left ++ t :: behind).head? = (left ++ t :: behind').head? := by
  cases left <;> rfl

theorem current_mem {left : List Token} {t : Token} (behind : List Token) :
    current (left ++ t :: behind) ∈ left ++ [t] := by
  cases left <;> simp [current]

def ResultFrom (ts : List Token) : Except SyntaxError Expr → Prop
  | .ok e => e.MadeOf ts
  | .error e => e.token ∈ ts

theorem ResultFrom.mono {ts us : List Token} {r : Except SyntaxError Expr} (h : ResultFrom ts r)
    (hsub : ts ⊆ us) : ResultFrom us r := by
  cases r with
  | ok e => exact Expr.MadeOf.mono h hsub
  | error e => exact hsub h

namespace Rule

/-- Reading stops at an end of the text at the latest, and comes to the same whatever stands
behind it. -/
theorem expression_barrier (n : Nat) (front : List Token) {t : Token} (ht : t.kind = .eof) :
    ∃ r left, left <:+ front ∧ ResultFrom (front ++ [t]) r ∧
      ∀ behind, (expression n).run (front ++ t :: behind) = ⟨r, left ++ t :: behind⟩ := by
  cases hrun : (expression n).run (front ++ [t]) with
  | mk r rest =>
    cases r with
    | ok e =>
      obtain ⟨us, hcut, hd, hn, hends⟩ := (reads_expression n _ rest e).1 hrun
      obtain ⟨left, rfl, rfl⟩ := append_eq_append_eof ht hd.kind_ne_eof hcut
      have hsub : us ⊆ us ++ left ++ [t] := by simp [List.append_assoc]
      refine ⟨.ok e, left, List.suffix_append us left,
        hd.madeOf_of_subset hsub (by intro l x h; cases h), fun behind => ?_⟩
      refine (reads_expression n _ _ e).2 ⟨us, List.append_assoc us left _, hd, hn, ?_⟩
      rwa [Phrase.Ends, head?_append_cons left behind [] t]
    | error e =>
      obtain ⟨us, hcut, hus, hfail⟩ := blames_expression n _ e rest hrun
      obtain ⟨left, rfl, rfl⟩ := append_eq_append_eof ht hus hcut
      refine ⟨.error e, left, List.suffix_append us left, ?_, fun behind => ?_⟩
      · have htoken : e.token ∈ us ∨ e.token ∈ left ++ [t] := by
          cases hfail with
          | unusable _ _ _ => exact .inr (current_mem [])
          | tooDeep _ => exact .inr (current_mem [])
          | valueless _ _ _ => exact .inl (by simp)
        show e.token ∈ us ++ left ++ [t]
        rw [List.append_assoc]
        exact List.mem_append.2 htoken
      · rw [List.append_assoc]
        exact hfail.run_append (head?_append_cons left behind [] t)

end Rule

end LoxExpr
