import LoxExpr.Expr.Parenthesized
import LoxExpr.Proofs.Readability
set_option autoImplicit false

/-!
Equality of trees. It compares the trees as they are after each negative zero has become zero, and
fails where a NaN occurs; that it is symmetric and transitive, and reflexive just where no NaN
occurs, follows from that. A tree read from a text holds neither, so on such trees equality tells
all fields apart.
-/

namespace LoxExpr

namespace Binary64

def zero : Binary64 := .ofBits 0

def negativeZero : Binary64 := .ofBits 0x8000000000000000

def mergeZeros (x : Binary64) : Binary64 :=
  { x with negative := x.magnitude.val != 0 && x.negative }

theorem magnitude_mergeZeros (x : Binary64) : x.mergeZeros.magnitude = x.magnitude := rfl

theorem isNaN_mergeZeros (x : Binary64) : x.mergeZeros.isNaN = x.isNaN := rfl

theorem mergeZeros_eq_self {x : Binary64} (h : x ≠ negativeZero) : x.mergeZeros = x := by
  obtain ⟨negative, magnitude⟩ := x
  cases negative with
  | false => rw [mergeZeros, Bool.and_false]
  | true =>
    have hmagnitude : magnitude.val ≠ 0 := by
      intro hzero
      obtain rfl : magnitude = ⟨0, by decide⟩ := Fin.ext hzero
      exact h rfl
    rw [mergeZeros, bne_iff_ne.2 hmagnitude, Bool.true_and]

theorem equal_iff {x y : Binary64} :
    x.equal y = true ↔ x.isNaN = false ∧ x.mergeZeros = y.mergeZeros := by
  constructor
  · intro h
    simp only [equal, Bool.and_eq_true, Bool.not_eq_true', Bool.or_eq_true, beq_iff_eq] at h
    obtain ⟨⟨hx, -⟩, rfl | ⟨hxzero, hyzero⟩⟩ := h
    · exact ⟨hx, rfl⟩
    · have hmagnitude : x.magnitude = y.magnitude := Fin.ext (hxzero.trans hyzero.symm)
      exact ⟨hx, by simp [mergeZeros, hmagnitude, hyzero]⟩
  · rintro ⟨hx, hmerge⟩
    have hy : y.isNaN = false := by rw [← isNaN_mergeZeros, ← hmerge, isNaN_mergeZeros, hx]
    have hmagnitude : x.magnitude = y.magnitude := by
      rw [← magnitude_mergeZeros, hmerge, magnitude_mergeZeros]
    have hsame : x = y ∨ x.magnitude.val = 0 ∧ y.magnitude.val = 0 := by
      by_cases hzero : x.magnitude.val = 0
      · exact .inr ⟨hzero, hmagnitude ▸ hzero⟩
      · have hxsigned : x ≠ negativeZero := fun h => hzero (h ▸ rfl)
        have hysigned : y ≠ negativeZero := fun h => hzero (hmagnitude ▸ h ▸ rfl)
        rw [mergeZeros_eq_self hxsigned, mergeZeros_eq_self hysigned] at hmerge
        exact .inl hmerge
    simpa [equal, hx, hy] using hsame

end Binary64

namespace Literal

def mergeZeros : Literal → Literal
  | number x => number x.mergeZeros
  | v => v

theorem isNaN_mergeZeros (v : Literal) : v.mergeZeros.isNaN = v.isNaN := by
  cases v with
  | number x => exact x.isNaN_mergeZeros
  | _ => rfl

theorem mergeZeros_eq_self {v : Literal} (h : v ≠ number .negativeZero) : v.mergeZeros = v := by
  cases v with
  | number x => exact congrArg number (Binary64.mergeZeros_eq_self fun hx => h (congrArg number hx))
  | _ => rfl

theorem equal_iff {v w : Literal} :
    v.equal w = true ↔ v.isNaN = false ∧ v.mergeZeros = w.mergeZeros := by
  cases v with
  | number x =>
    cases w with
    | number y => simp only [equal, isNaN, mergeZeros, number.injEq, Binary64.equal_iff]
    | _ => simp [equal, mergeZeros]
  | _ => cases w <;> simp [equal, isNaN, mergeZeros]

end Literal

namespace Token

def mergeZeros (t : Token) : Token := { t with literal := t.literal.map Literal.mergeZeros }

theorem equal_iff {s t : Token} : s.equal t = true ↔
    (∀ v ∈ s.literal.toList, v.isNaN = false) ∧ s.mergeZeros = t.mergeZeros := by
  obtain ⟨kind, lexeme, literal, line⟩ := s
  obtain ⟨kind', lexeme', literal', line'⟩ := t
  cases literal with
  | none => cases literal' <;> simp [equal, mergeZeros, and_assoc]
  | some v =>
    cases literal' with
    | none => simp [equal, mergeZeros]
    | some w =>
      simp only [equal, mergeZeros, Bool.and_eq_true, beq_iff_eq, Literal.equal_iff,
        Option.toList_some, List.mem_singleton, forall_eq, Option.map_some, mk.injEq,
        Option.some.injEq]
      tauto

end Token

namespace Expr

/-- The values of a tree, at its leaves and in its operators. -/
def values : Expr → List Literal
  | literal v => [v]
  | grouping e => e.values
  | unary op e => op.literal.toList ++ e.values
  | binary l op r => l.values ++ (op.literal.toList ++ r.values)

def mergeZeros : Expr → Expr
  | literal v => literal v.mergeZeros
  | grouping e => grouping e.mergeZeros
  | unary op e => unary op.mergeZeros e.mergeZeros
  | binary l op r => binary l.mergeZeros op.mergeZeros r.mergeZeros

theorem equal_iff {a b : Expr} : a.equal b = true ↔
    (∀ v ∈ a.values, v.isNaN = false) ∧ a.mergeZeros = b.mergeZeros := by
  induction a generalizing b with
  | literal v => cases b <;> simp [equal, values, mergeZeros, Literal.equal_iff]
  | grouping e ih => cases b <;> simp [equal, values, mergeZeros, ih]
  | unary op e ih =>
    cases b with
    | unary op' f =>
      simp only [equal, Bool.and_eq_true, Token.equal_iff, ih, values, List.forall_mem_append,
        mergeZeros, unary.injEq]
      exact and_and_and_comm
    | _ => simp [equal, mergeZeros]
  | binary l op r hl hr =>
    cases b with
    | binary m op' s =>
      simp only [equal, Bool.and_eq_true, Token.equal_iff, hl, hr, values, List.forall_mem_append,
        mergeZeros, binary.injEq]
      tauto
    | _ => simp [equal, mergeZeros]

theorem values_mergeZeros (e : Expr) : e.mergeZeros.values = e.values.map Literal.mergeZeros := by
  have hoperator (op : Token) :
      op.mergeZeros.literal.toList = op.literal.toList.map Literal.mergeZeros := by
    rw [Token.mergeZeros]
    cases op.literal <;> rfl
  induction e with
  | literal v => rfl
  | grouping e ih => exact ih
  | unary op e ih => rw [mergeZeros, values, values, ih, hoperator, List.map_append]
  | binary l op r hl hr =>
    rw [mergeZeros, values, values, hl, hr, hoperator, List.map_append, List.map_append]

theorem isNaN_of_mergeZeros_eq {a b : Expr} (h : a.mergeZeros = b.mergeZeros)
    (ha : ∀ v ∈ a.values, v.isNaN = false) : ∀ w ∈ b.values, w.isNaN = false := by
  intro w hw
  have hmem := List.mem_map_of_mem (f := Literal.mergeZeros) hw
  rw [← values_mergeZeros, ← h, values_mergeZeros] at hmem
  obtain ⟨v, hv, hvw⟩ := List.mem_map.1 hmem
  rw [← w.isNaN_mergeZeros, ← hvw, v.isNaN_mergeZeros, ha v hv]

theorem equal_of_equal {a b : Expr} (h : a.equal b = true) : b.equal a = true := by
  obtain ⟨ha, hmerge⟩ := equal_iff.1 h
  exact equal_iff.2 ⟨isNaN_of_mergeZeros_eq hmerge ha, hmerge.symm⟩

theorem equal_trans {a b c : Expr} (hab : a.equal b = true) (hbc : b.equal c = true) :
    a.equal c = true := by
  obtain ⟨ha, hmerge⟩ := equal_iff.1 hab
  exact equal_iff.2 ⟨ha, hmerge.trans (equal_iff.1 hbc).2⟩

theorem equal_self_iff {a : Expr} : a.equal a = true ↔ ∀ v ∈ a.values, v.isNaN = false := by
  rw [equal_iff, and_iff_left rfl]

theorem mergeZeros_eq_self {e : Expr} (h : .number .negativeZero ∉ e.values) :
    e.mergeZeros = e := by
  have hoperator (op : Token) (hop : .number .negativeZero ∉ op.literal.toList) :
      op.mergeZeros = op := by
    obtain ⟨kind, lexeme, literal, line⟩ := op
    cases literal with
    | none => rfl
    | some v =>
      have hv : v ≠ .number .negativeZero := fun hv => hop (by simp [hv])
      rw [Token.mergeZeros, Option.map_some, Literal.mergeZeros_eq_self hv]
  induction e with
  | literal v =>
    have hv : v ≠ .number .negativeZero := fun hv => h (by simp [values, hv])
    rw [mergeZeros, Literal.mergeZeros_eq_self hv]
  | grouping e ih => rw [mergeZeros, ih h]
  | unary op e ih =>
    rw [values, List.mem_append, not_or] at h
    rw [mergeZeros, hoperator op h.1, ih h.2]
  | binary l op r hl hr =>
    rw [values, List.mem_append, List.mem_append, not_or, not_or] at h
    rw [mergeZeros, hl h.1, hoperator op h.2.1, hr h.2.2]

/-- Only a negative zero can stand where an equal tree has something else. -/
theorem eq_of_equal {a b : Expr} (h : a.equal b = true) (ha : .number .negativeZero ∉ a.values)
    (hb : .number .negativeZero ∉ b.values) : a = b := by
  rw [← mergeZeros_eq_self ha, (equal_iff.1 h).2, mergeZeros_eq_self hb]

end Expr

def Literal.Unsigned : Literal → Prop
  | number x => x.isNaN = false ∧ x.negative = false
  | _ => True

namespace Literal.Unsigned

variable {v : Literal}

theorem isNaN_eq (h : v.Unsigned) : v.isNaN = false := by
  cases v with
  | number x => exact h.1
  | _ => rfl

theorem ne_negativeZero (h : v.Unsigned) : v ≠ .number .negativeZero := by
  rintro rfl
  exact Bool.noConfusion h.2

end Literal.Unsigned

theorem Token.Form.unsigned {t : Token} (h : t.Form) {v : Literal} (hv : t.Carries v) :
    v.Unsigned := by
  cases hv with
  | number hkind hliteral => exact h.number_unsigned hkind hliteral
  | _ => trivial

theorem Token.Form.literal_of_symbol {t : Token} (h : t.Form)
    (hkind : ∃ s, t.kind = .symbol s) : t.literal = none := by
  obtain ⟨s, hs⟩ := hkind
  obtain ⟨⟨-, -, -, hliteral⟩, -⟩ := h.isOperator hs
  exact hliteral

theorem Expr.DrawnFrom.unsigned {ts : List Token} {e : Expr} (h : e.DrawnFrom ts)
    (hts : ∀ t ∈ ts, t.Form) : ∀ v ∈ e.values, v.Unsigned := by
  induction h with
  | literal ht hv =>
    intro w hw
    rw [List.mem_singleton.1 hw]
    exact (hts _ ht).unsigned hv
  | grouping _ ih => exact ih
  | unary ht hprefix _ ih =>
    rw [values, (hts _ ht).literal_of_symbol hprefix.exists_symbol]
    exact ih
  | binary _ ht hjoins _ ihl ihr =>
    rw [values, (hts _ ht).literal_of_symbol hjoins.exists_symbol]
    intro w hw
    exact (List.mem_append.1 hw).elim (ihl w) (ihr w)

theorem Parsed.unsigned_of_expr {source : String} {e : Expr} (h : (ofText source).expr = some e) :
    ∀ v ∈ e.values, v.Unsigned :=
  (drawnFrom_body h).unsigned fun _ ht => Scan.form_of_mem_body ht

/-- Equality of trees is symmetric and transitive, and a tree equals itself just if no NaN occurs in
it. Equal are the trees without NaN that are the same once their negative zeros are zeros; they are
the same as they are if neither has one. So it is with the trees of texts, and a zero equals a
negative zero, which is written otherwise. -/
theorem Expr.equal_laws :
    (∀ a b : Expr, a.equal b = true → b.equal a = true) ∧
    (∀ a b c : Expr, a.equal b = true → b.equal c = true → a.equal c = true) ∧
    (∀ a : Expr, a.equal a = true ↔ ∀ v ∈ a.values, v.isNaN = false) ∧
    (∀ a b : Expr, a.equal b = true ↔
      (∀ v ∈ a.values, v.isNaN = false) ∧ a.mergeZeros = b.mergeZeros) ∧
    (∀ a b : Expr, a.equal b = true → .number .negativeZero ∉ a.values →
      .number .negativeZero ∉ b.values → a = b) ∧
    (∃ a b : Expr, a.equal b = true ∧ a ≠ b ∧ a.parenthesized ≠ b.parenthesized) ∧
    ∀ (source source' : String) (a b : Expr), (Parsed.ofText source).expr = some a →
      (Parsed.ofText source').expr = some b →
        a.equal a = true ∧ (a.equal b = true → a = b ∧ a.parenthesized = b.parenthesized) := by
  refine ⟨fun a b => equal_of_equal, fun a b c => equal_trans, fun a => equal_self_iff,
    fun a b => equal_iff, fun a b => eq_of_equal, ?_, fun source source' a b ha hb => ?_⟩
  · exact ⟨.literal (.number .zero), .literal (.number .negativeZero), by decide, by decide,
      by decide +kernel⟩
  · have hunsigned := Parsed.unsigned_of_expr ha
    have hunsigned' := Parsed.unsigned_of_expr hb
    refine ⟨equal_self_iff.2 fun v hv => (hunsigned v hv).isNaN_eq, fun h => ?_⟩
    obtain rfl := eq_of_equal h (fun hv => (hunsigned _ hv).ne_negativeZero rfl)
      (fun hv => (hunsigned' _ hv).ne_negativeZero rfl)
    exact ⟨rfl, rfl⟩

theorem Expr.equal_laws_comparison :
    let zero : Expr := .literal (.number .zero)
    let negative : Expr := .literal (.number .negativeZero)
    let comparison (x : Binary64) : Expr :=
      .binary (.literal .nil) ⟨.symbol .greaterEqual, ">=", none, 1⟩ (.literal (.number x))
    negative.equal zero = true ∧ zero.equal zero = true ∧
      ∃ x y, (Parsed.ofText "nil >= 1.50").expr = some (comparison x) ∧
        (Parsed.ofText "nil>=01.5").expr = some (comparison y) ∧
        (comparison x).equal (comparison x) = true ∧ comparison x = comparison y := by
  intro zero negative comparison
  obtain ⟨hsymm, htrans, -, -, -, -, htexts⟩ := equal_laws
  have hzero : zero.equal negative = true := by decide
  have hnegative : negative.equal zero = true := hsymm zero negative hzero
  let x : Binary64 := .ofBits 0x3ff8000000000000
  have hx : (Parsed.ofText "nil >= 1.50").expr = some (comparison x) := by decide +kernel
  have hy : (Parsed.ofText "nil>=01.5").expr = some (comparison x) := by decide +kernel
  obtain ⟨hself, hsame⟩ := htexts _ _ _ _ hx hy
  exact ⟨hnegative, htrans zero negative zero hzero hnegative, x, x, hx, hy, hself,
    (hsame hself).1⟩

end LoxExpr
