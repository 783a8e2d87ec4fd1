import LoxExpr.Proofs.Number.Printed
import LoxExpr.Proofs.Scanned
set_option autoImplicit false

/-!
Unique readability of the parenthesized form. A subtree is written as one word, or between
parentheses after a word, so what is written ends where the tree does; and of the words only a
string could be any other word. So two trees without strings that are written alike are one tree.
-/

namespace LoxExpr

/-- Characters that stand together in the parenthesized form. -/
def IsWord (us : List Char) : Prop := us ≠ [] ∧ ∀ c ∈ us, c ≠ ' ' ∧ c ≠ '(' ∧ c ≠ ')'

/-- What stands behind a subtree in the parenthesized form. -/
def Closes (rest : List Char) : Prop := ∀ c ∈ rest.head?, c = ' ' ∨ c = ')'

theorem closes_nil : Closes [] := by simp [Closes]

theorem closes_space (rest : List Char) : Closes (' ' :: rest) := by simp [Closes]

theorem closes_paren (rest : List Char) : Closes (')' :: rest) := by simp [Closes]

namespace IsWord

variable {us vs : List Char}

theorem append_inj (hu : IsWord us) (hv : IsWord vs) {r s : List Char} (hr : Closes r)
    (hs : Closes s) (h : us ++ r = vs ++ s) : us = vs ∧ r = s := by
  let inside (c : Char) : Bool := c != ' ' && c != ')'
  have hword {ws : List Char} (hw : IsWord ws) : ∀ c ∈ ws, inside c = true := by
    intro c hc
    obtain ⟨hspace, -, hparen⟩ := hw.2 c hc
    simp [inside, hspace, hparen]
  have hstop {t : List Char} (ht : Closes t) : ∀ c ∈ t.head?, inside c = false := by
    intro c hc
    rcases ht c hc with rfl | rfl <;> rfl
  have htake := congrArg (List.takeWhile inside) h
  have hdrop := congrArg (List.dropWhile inside) h
  rw [takeWhile_run (hword hu) (hstop hr), takeWhile_run (hword hv) (hstop hs)] at htake
  rw [dropWhile_run (hword hu) (hstop hr), dropWhile_run (hword hv) (hstop hs)] at hdrop
  exact ⟨htake, hdrop⟩

theorem append_ne_paren (hu : IsWord us) (r s : List Char) : us ++ r ≠ '(' :: s := by
  obtain ⟨c, cs, rfl⟩ := List.exists_cons_of_ne_nil hu.1
  intro h
  exact (hu.2 c List.mem_cons_self).2.1 (List.cons.inj h).1

theorem node_inj (hu : IsWord us) (hv : IsWord vs) {r s : List Char}
    (h : '(' :: (us ++ ' ' :: r) = '(' :: (vs ++ ' ' :: s)) : us = vs ∧ r = s := by
  obtain ⟨rfl, hrest⟩ :=
    hu.append_inj hv (closes_space r) (closes_space s) (List.cons.inj h).2
  exact ⟨rfl, (List.cons.inj hrest).2⟩

end IsWord

theorem isWord_group : IsWord "group".toList := by simp [IsWord]

theorem Kind.Prefixes.exists_symbol {k : Kind} (h : k.Prefixes) : ∃ s, k = .symbol s := by
  cases h <;> exact ⟨_, rfl⟩

theorem Level.Joins.exists_symbol {l : Level} {k : Kind} (h : l.Joins k) : ∃ s, k = .symbol s := by
  cases h <;> exact ⟨_, rfl⟩

theorem Kind.Prefixes.isWord_text {s : Symbol} (h : Kind.Prefixes (.symbol s)) :
    IsWord s.text.toList := by cases h <;> simp [IsWord, Symbol.text]

theorem Level.Joins.isWord_text {l : Level} {s : Symbol} (h : l.Joins (.symbol s)) :
    IsWord s.text.toList := by cases h <;> simp [IsWord, Symbol.text]

theorem Symbol.text_injective {s t : Symbol} (h : s.text = t.text) : s = t := by
  have hfind (u : Symbol) : all.find? (·.text == u.text) = some u := by cases u <;> decide
  have hs := hfind s
  rw [h, hfind t] at hs
  exact (Option.some.inj hs).symm

theorem Symbol.text_ne_group (s : Symbol) : s.text ≠ "group" := by cases s <;> decide

theorem Token.IsOperator.unplaced_eq {s t : Token} (hs : s.IsOperator) (ht : t.IsOperator)
    (h : s.lexeme = t.lexeme) : s.unplaced = t.unplaced := by
  obtain ⟨a, hskind, hslexeme, hsliteral⟩ := hs
  obtain ⟨b, htkind, htlexeme, htliteral⟩ := ht
  obtain rfl := Symbol.text_injective (hslexeme.symm.trans (h.trans htlexeme))
  simp only [Token.unplaced, hskind, htkind, hsliteral, htliteral, h]

namespace Token.IsOperator

theorem ne_group {t : Token} (h : t.IsOperator) : t.lexeme.toList ≠ "group".toList := by
  obtain ⟨s, -, hlexeme, -⟩ := h
  rw [hlexeme]
  exact fun heq => s.text_ne_group (String.toList_inj.1 heq)

end Token.IsOperator

namespace Lexeme

theorem isDigit_of_number {us cs : List Char} {c : Char} (h : Lexeme .number us)
    (hus : us = c :: cs) : c.isDigit = true := by
  cases h with
  | whole hd => exact hd.2 c (by rw [hus]; exact List.mem_cons_self)
  | fraction hd _ => exact hd.head_isDigit ⟨_, hus⟩

theorem isWord_of_number {us : List Char} (h : Lexeme .number us) : IsWord us := by
  have hdigit {c : Char} (hc : c.isDigit = true) : c ≠ ' ' ∧ c ≠ '(' ∧ c ≠ ')' := by
    refine ⟨?_, ?_, ?_⟩ <;> rintro rfl <;> exact absurd hc (by decide)
  refine ⟨h.ne_nil, fun c hc => ?_⟩
  cases h with
  | whole hd => exact hdigit (hd.2 c hc)
  | fraction hd hf =>
    rcases List.mem_append.1 hc with hc | hc
    · exact hdigit (hd.2 c hc)
    · rcases List.mem_cons.1 hc with rfl | hc
      · decide
      · exact hdigit (hf.2 c hc)

end Lexeme

namespace Binary64

theorem lt_infinityCode {x : Binary64} (hnan : x.isNaN = false) (hinf : x.isInfinite = false) :
    x.magnitude.val < infinityCode := by
  have hle := of_decide_eq_false hnan
  have hne := of_decide_eq_false hinf
  omega

variable {x y : Binary64}

def sizeChars (x : Binary64) : List Char :=
  if x.isInfinite then ['i', 'n', 'f'] else (shortest x.magnitude.val).chars

theorem toList_text_eq (h : x.isNaN = false) :
    x.text.toList = if x.negative then '-' :: x.sizeChars else x.sizeChars := by
  rw [text, h, sizeChars]
  cases x.negative <;> cases x.isInfinite <;> simp [Numeral.text]

theorem sizeChars_head {c : Char} {cs : List Char} (h : x.sizeChars = c :: cs) :
    c.isDigit = true ∨ c = 'i' := by
  rw [sizeChars] at h
  split at h
  · exact .inr (List.cons.inj h).1.symm
  · exact .inl ((Numeral.lexeme_chars _).isDigit_of_number h)

theorem isWord_sizeChars (x : Binary64) : IsWord x.sizeChars := by
  rw [sizeChars]
  split
  · simp [IsWord]
  · exact (Numeral.lexeme_chars _).isWord_of_number

theorem magnitude_eq_of_sizeChars (hx : x.isNaN = false) (hy : y.isNaN = false)
    (h : x.sizeChars = y.sizeChars) : x.magnitude = y.magnitude := by
  -- Reading gives back the code of each finite magnitude, and only infinity is no decimal.
  have hread (z : Binary64) (hz : z.isInfinite = false) :
      Numeral.read? z.sizeChars = some (shortest z.magnitude.val) := by
    rw [sizeChars, hz, if_neg Bool.false_ne_true, Numeral.read?_chars]
  have hinf (z : Binary64) (hz : z.isInfinite = true) : Numeral.read? z.sizeChars = none := by
    rw [sizeChars, hz, if_pos rfl]
    decide
  apply Fin.ext
  cases hxi : x.isInfinite with
  | true =>
    cases hyi : y.isInfinite with
    | true => exact (of_decide_eq_true hxi).trans (of_decide_eq_true hyi).symm
    | false =>
      have hnone := hinf x hxi
      rw [h, hread y hyi] at hnone
      cases hnone
  | false =>
    cases hyi : y.isInfinite with
    | true =>
      have hnone := hinf y hyi
      rw [← h, hread x hxi] at hnone
      cases hnone
    | false =>
      have hsome := hread x hxi
      rw [h, hread y hyi, Option.some.injEq] at hsome
      rw [← nearestCode_shortest (lt_infinityCode hx hxi),
        ← nearestCode_shortest (lt_infinityCode hy hyi), hsome]

theorem text_injective (hx : x.isNaN = false) (hy : y.isNaN = false) (h : x.text = y.text) :
    x = y := by
  have hminus (z : Binary64) (cs : List Char) : z.sizeChars ≠ '-' :: cs := by
    intro hz
    rcases sizeChars_head hz with hdigit | hc
    · exact absurd hdigit (by decide)
    · exact absurd hc (by decide)
  have hchars := congrArg String.toList h
  rw [toList_text_eq hx, toList_text_eq hy] at hchars
  obtain ⟨xneg, xmag⟩ := x
  obtain ⟨yneg, ymag⟩ := y
  cases xneg <;> cases yneg <;> simp only [if_true, Bool.false_eq_true, if_false] at hchars
  · exact congrArg _ (magnitude_eq_of_sizeChars hx hy hchars)
  · exact absurd hchars (hminus _ _)
  · exact absurd hchars.symm (hminus _ _)
  · exact congrArg _ (magnitude_eq_of_sizeChars hx hy (List.cons.inj hchars).2)

theorem isWord_text (h : x.isNaN = false) : IsWord x.text.toList := by
  obtain ⟨hne, hall⟩ := x.isWord_sizeChars
  rw [toList_text_eq h]
  split
  · refine ⟨List.cons_ne_nil _ _, fun c hc => ?_⟩
    rcases List.mem_cons.1 hc with rfl | hc
    · decide
    · exact hall c hc
  · exact ⟨hne, hall⟩

theorem text_notMem_keywords (h : x.isNaN = false) : x.text ∉ ["true", "false", "nil"] := by
  have hhead (c : Char) (cs : List Char) (hc : x.text.toList = c :: cs) :
      c.isDigit = true ∨ c = 'i' ∨ c = '-' := by
    rw [toList_text_eq h] at hc
    split at hc
    · exact .inr (.inr (List.cons.inj hc).1.symm)
    · exact (sizeChars_head hc).imp_right .inl
  intro hmem
  simp only [List.mem_cons, List.not_mem_nil, or_false] at hmem
  rcases hmem with heq | heq | heq
  all_goals
    have hchars := congrArg String.toList heq
    exact absurd (hhead _ _ hchars) (by decide)

end Binary64

namespace Literal

/-- No string, and no NaN, which would not equal itself. -/
def Plain : Literal → Prop
  | number x => x.isNaN = false
  | str _ => False
  | bool _ => True
  | nil => True

theorem Plain.isWord_text {v : Literal} (h : v.Plain) : IsWord v.text.toList := by
  cases v with
  | number x => exact Binary64.isWord_text h
  | str s => cases h
  | bool b => cases b <;> simp [IsWord, text]
  | nil => simp [IsWord, text]

theorem text_number_ne {x : Binary64} (h : x.isNaN = false) :
    (∀ b, x.text ≠ (bool b).text) ∧ x.text ≠ nil.text := by
  have hx := Binary64.text_notMem_keywords h
  simp only [List.mem_cons, List.not_mem_nil, or_false, not_or] at hx
  obtain ⟨htrue, hfalse, hnil⟩ := hx
  exact ⟨fun b => by cases b <;> assumption, hnil⟩

theorem Plain.text_injective {v w : Literal} (hv : v.Plain) (hw : w.Plain)
    (h : v.text = w.text) : v = w := by
  cases v with
  | str s => cases hv
  | number x =>
    cases w with
    | str s => cases hw
    | number y => rw [Binary64.text_injective hv hw h]
    | bool b => exact absurd h ((text_number_ne hv).1 b)
    | nil => exact absurd h (text_number_ne hv).2
  | bool a =>
    cases w with
    | str s => cases hw
    | number y => exact absurd h.symm ((text_number_ne hw).1 a)
    | bool b => revert h; cases a <;> cases b <;> decide
    | nil => revert h; cases a <;> decide
  | nil =>
    cases w with
    | str s => cases hw
    | number y => exact absurd h.symm (text_number_ne hw).2
    | bool b => revert h; cases b <;> decide
    | nil => rfl

end Literal

namespace Expr

def literals : Expr → List Literal
  | literal v => [v]
  | grouping e => e.literals
  | unary _ e => e.literals
  | binary l _ r => l.literals ++ r.literals

inductive Plain : Expr → Prop where
  | literal {v : Literal} : v.Plain → Plain (.literal v)
  | grouping {e : Expr} : Plain e → Plain (.grouping e)
  | unary {op : Token} {e : Expr} :
      op.IsOperator → IsWord op.lexeme.toList → Plain e → Plain (.unary op e)
  | binary {op : Token} {l r : Expr} :
      Plain l → op.IsOperator → IsWord op.lexeme.toList → Plain r → Plain (.binary l op r)

/-- What is written begins with one plain tree at most, up to the lines of its operators. -/
theorem Plain.append_inj {e f : Expr} (he : e.Plain) (hf : f.Plain) {r s : List Char}
    (hr : Closes r) (hs : Closes s) (h : e.chars ++ r = f.chars ++ s) :
    e.unplaced = f.unplaced ∧ r = s := by
  -- What follows is free, for an operand is followed by the other or by its parenthesis.
  induction he generalizing f r s with
  | @literal v hv =>
    have hword := hv.isWord_text
    rw [chars_literal] at h
    cases hf with
    | literal hw =>
      obtain ⟨htext, hrest⟩ := hword.append_inj hw.isWord_text hr hs h
      rw [hv.text_injective hw (String.toList_inj.1 htext)]
      exact ⟨rfl, hrest⟩
    | grouping _ => rw [chars_grouping] at h; exact absurd h (hword.append_ne_paren _ _)
    | unary _ _ _ => rw [chars_unary] at h; exact absurd h (hword.append_ne_paren _ _)
    | binary _ _ _ _ => rw [chars_binary] at h; exact absurd h (hword.append_ne_paren _ _)
  | @grouping e _ ih =>
    rw [chars_grouping] at h
    cases hf with
    | literal hw => exact absurd h.symm (hw.isWord_text.append_ne_paren _ _)
    | @grouping f hf =>
      rw [chars_grouping] at h
      obtain ⟨-, hinside⟩ := isWord_group.node_inj isWord_group h
      obtain ⟨htree, hrest⟩ := ih hf (closes_paren r) (closes_paren s) hinside
      exact ⟨by rw [unplaced, unplaced, htree], (List.cons.inj hrest).2⟩
    | unary hop hword _ =>
      rw [chars_unary] at h
      exact absurd (isWord_group.node_inj hword h).1.symm hop.ne_group
    | binary _ hop hword _ =>
      rw [chars_binary] at h
      exact absurd (isWord_group.node_inj hword h).1.symm hop.ne_group
  | @unary op e hop hword _ ih =>
    rw [chars_unary] at h
    cases hf with
    | literal hw => exact absurd h.symm (hw.isWord_text.append_ne_paren _ _)
    | grouping _ =>
      rw [chars_grouping] at h
      exact absurd (hword.node_inj isWord_group h).1 hop.ne_group
    | @unary op' f hop' hword' hf =>
      rw [chars_unary] at h
      obtain ⟨hname, hinside⟩ := hword.node_inj hword' h
      obtain ⟨htree, hrest⟩ := ih hf (closes_paren r) (closes_paren s) hinside
      refine ⟨?_, (List.cons.inj hrest).2⟩
      rw [unplaced, unplaced, hop.unplaced_eq hop' (String.toList_inj.1 hname), htree]
    | @binary op' l f hl hop' hword' _ =>
      -- The operand ends at a parenthesis, where a space would have to stand.
      rw [chars_binary] at h
      obtain ⟨-, hinside⟩ := hword.node_inj hword' h
      obtain ⟨-, hrest⟩ := ih hl (closes_paren r) (closes_space _) hinside
      exact absurd (List.cons.inj hrest).1 (by decide)
  | @binary op left right _ hop hword _ ihl ihr =>
    rw [chars_binary] at h
    cases hf with
    | literal hw => exact absurd h.symm (hw.isWord_text.append_ne_paren _ _)
    | grouping _ =>
      rw [chars_grouping] at h
      exact absurd (hword.node_inj isWord_group h).1 hop.ne_group
    | @unary op' f hop' hword' hf =>
      rw [chars_unary] at h
      obtain ⟨-, hinside⟩ := hword.node_inj hword' h
      obtain ⟨-, hrest⟩ := ihl hf (closes_space _) (closes_paren s) hinside
      exact absurd (List.cons.inj hrest).1 (by decide)
    | @binary op' l f hl hop' hword' hf =>
      rw [chars_binary] at h
      obtain ⟨hname, hinside⟩ := hword.node_inj hword' h
      obtain ⟨hleft, hbehind⟩ := ihl hl (closes_space _) (closes_space _) hinside
      obtain ⟨hright, hrest⟩ :=
        ihr hf (closes_paren r) (closes_paren s) (List.cons.inj hbehind).2
      refine ⟨?_, (List.cons.inj hrest).2⟩
      rw [unplaced, unplaced, hleft, hop.unplaced_eq hop' (String.toList_inj.1 hname), hright]

theorem Plain.parenthesized_eq_iff {e f : Expr} (he : e.Plain) (hf : f.Plain) :
    e.parenthesized = f.parenthesized ↔ e.unplaced = f.unplaced := by
  constructor
  · intro h
    have hchars : e.chars ++ [] = f.chars ++ [] := by rw [chars, chars, h]
    exact (he.append_inj hf closes_nil closes_nil hchars).1
  · intro h
    rw [← e.parenthesized_unplaced, h, f.parenthesized_unplaced]

end Expr

namespace Token.Form

variable {t : Token}

theorem isOperator (h : t.Form) {s : Symbol} (hkind : t.kind = .symbol s) :
    t.IsOperator ∧ t.lexeme = s.text := by
  cases h with
  | symbol u line =>
    obtain rfl := Kind.symbol.inj hkind
    exact ⟨⟨u, rfl, rfl, rfl⟩, rfl⟩
  | _ => cases hkind

theorem number_unsigned (h : t.Form) (hkind : t.kind = .number) {x : Binary64}
    (hliteral : t.literal = some (.number x)) : x.isNaN = false ∧ x.negative = false := by
  cases h with
  | number _ _ _ =>
    obtain rfl := Literal.number.inj (Option.some.inj hliteral)
    exact ⟨Binary64.nearest_isNaN _ _, Binary64.nearest_negative _ _⟩
  | _ => cases hkind

theorem plain (h : t.Form) {v : Literal} (hv : t.Carries v) (hstr : ∀ s, v ≠ .str s) :
    v.Plain := by
  cases hv with
  | number hkind hliteral => exact (h.number_unsigned hkind hliteral).1
  | string _ _ => exact absurd rfl (hstr _)
  | yes _ => trivial
  | no _ => trivial
  | nothing _ => trivial

end Token.Form

theorem Expr.DrawnFrom.plain {ts : List Token} {e : Expr} (h : e.DrawnFrom ts)
    (hts : ∀ t ∈ ts, t.Form) (hstr : ∀ s, .str s ∉ e.literals) : e.Plain := by
  induction h with
  | literal ht hv =>
    exact .literal ((hts _ ht).plain hv fun s hs => hstr s (by simp [literals, hs]))
  | grouping _ ih => exact .grouping (ih hstr)
  | @unary op e ht hprefix _ ih =>
    obtain ⟨s, hkind⟩ := hprefix.exists_symbol
    obtain ⟨hop, hlexeme⟩ := (hts _ ht).isOperator hkind
    rw [hkind] at hprefix
    exact .unary hop (hlexeme ▸ hprefix.isWord_text) (ih hstr)
  | @binary l op left right _ ht hjoins _ ihl ihr =>
    obtain ⟨s, hkind⟩ := hjoins.exists_symbol
    obtain ⟨hop, hlexeme⟩ := (hts _ ht).isOperator hkind
    rw [hkind] at hjoins
    refine .binary (ihl fun u hu => ?_) hop (hlexeme ▸ hjoins.isWord_text) (ihr fun u hu => ?_)
    · exact hstr u (List.mem_append_left _ hu)
    · exact hstr u (List.mem_append_right _ hu)

namespace Parsed

theorem plain_of_expr {source : String} {e : Expr} (h : (ofText source).expr = some e)
    (hstr : ∀ s, .str s ∉ e.literals) : e.Plain :=
  (drawnFrom_body h).plain (fun _ ht => Scan.form_of_mem_body ht) hstr

/-- Trees without strings that texts are read as have the same parenthesized form just if they are
the same but for the lines of their operators. -/
theorem parenthesized_eq_iff_unplaced {source source' : String} {e f : Expr}
    (he : (ofText source).expr = some e) (hf : (ofText source').expr = some f)
    (hestr : ∀ s, .str s ∉ e.literals) (hfstr : ∀ s, .str s ∉ f.literals) :
    e.parenthesized = f.parenthesized ↔ e.unplaced = f.unplaced :=
  (plain_of_expr he hestr).parenthesized_eq_iff (plain_of_expr hf hfstr)

def product (first second : Nat) : Expr :=
  let op (s : Symbol) (line : Nat) : Token := ⟨.symbol s, s.text, none, line⟩
  let number (word : UInt64) : Expr := .literal (.number (.ofBits word))
  let difference : Expr :=
    .binary (number 0x3ff8000000000000) (op .minus first) (number 0x4000000000000000)
  .binary (.grouping difference) (op .star second)
    (.unary (op .minus second) (number 0x4008000000000000))

theorem parenthesized_eq_iff_unplaced_product :
    (ofText "(1.50-2)*-3").expr = some (product 1 1) ∧
      (ofText "( 1.5\n- 02 )\n* -3.0").expr = some (product 2 3) ∧
      (product 1 1).parenthesized = "(* (group (- 1.5 2)) (- 3))" ∧
      ((product 1 1).parenthesized = (product 2 3).parenthesized ↔
        (product 1 1).unplaced = (product 2 3).unplaced) := by
  have hshort : (ofText "(1.50-2)*-3").expr = some (product 1 1) := by decide +kernel
  have hlong : (ofText "( 1.5\n- 02 )\n* -3.0").expr = some (product 2 3) := by decide +kernel
  have hstr (i j : Nat) : ∀ s, .str s ∉ (product i j).literals := by
    simp [product, Expr.literals]
  exact ⟨hshort, hlong, by decide +kernel,
    parenthesized_eq_iff_unplaced hshort hlong (hstr 1 1) (hstr 2 3)⟩

end Parsed

end LoxExpr
