import LoxExpr.Proofs.Lexical.LineBreak
import LoxExpr.Proofs.Lexical.Composition
import LoxExpr.Proofs.Number.Rounding
set_option autoImplicit false

namespace LoxExpr

/-- The rational number that a run of digits spells, with or without a point in it. -/
inductive Decimal : List Char → ℚ → Prop where
  | whole {ds : List Char} : Digits ds → Decimal ds (Nat.ofDigitChars 10 ds 0)
  | fraction {ds fs : List Char} : Digits ds → Digits fs →
      Decimal (ds ++ '.' :: fs) (Nat.ofDigitChars 10 (ds ++ fs) 0 / 10 ^ fs.length)

namespace Decimal

variable {cs : List Char} {q : ℚ}

theorem lexeme (h : Decimal cs q) : Lexeme .number cs := by
  cases h with
  | whole hd => exact .whole hd
  | fraction hd hf => exact .fraction hd hf

theorem exists_read? (h : Decimal cs q) :
    ∃ n, Numeral.read? cs = some n ∧ n.value = q := by
  cases h with
  | whole hd =>
    exact ⟨_, Numeral.read?_whole hd, by simp [Numeral.value]⟩
  | fraction hd hf =>
    exact ⟨_, Numeral.read?_fraction hd hf, by simp [Numeral.value]⟩

theorem newline_notMem (h : Decimal cs q) : '\n' ∉ cs := by
  cases h with
  | whole hd => exact hd.newline_notMem
  | fraction hd hf => simp [hd.newline_notMem, hf.newline_notMem]

theorem segments_eq (h : Decimal cs q) : segments cs = [⟨.number, cs⟩] := by
  have happend := h.lexeme.segments_append (by decide) separated_nil
  rwa [List.append_nil, segments_nil] at happend

theorem ofChars_eq (h : Decimal cs q) {n : Numeral} (hn : Numeral.read? cs = some n)
    (line : Nat) : Scan.ofChars line cs =
      ⟨[⟨.number, String.ofList cs, some (.number n.toBinary64), line⟩, .eof line], []⟩ := by
  have hline : (⟨.number, cs⟩ : Segment).newlines = 0 := List.count_eq_zero.2 h.newline_notMem
  rw [Scan.ofChars, h.segments_eq, Scan.ofSegments, hline, Segment.reading_number hn]
  rfl

theorem scan_eq (h : Decimal cs q) {n : Numeral} (hn : Numeral.read? cs = some n) :
    Diagnostics.empty.scan (String.ofList cs) =
      ([⟨.number, String.ofList cs, some (.number n.toBinary64), 1⟩, .eof 1], .empty) := by
  rw [Diagnostics.scan, Scan.ofText, String.toList_ofList, h.ofChars_eq hn]
  rfl

end Decimal

namespace YieldsAll

variable {line : Nat} {ss : List Segment} {ts : List Token} {ds : List Diagnostic}

theorem exists_of_token (h : YieldsAll line ss ts ds) {t : Token} (ht : t ∈ ts) :
    (∃ l, t = .eof l) ∨ ∃ l s d, Segment.Yields l s (some t) d := by
  induction h with
  | nil line => exact .inl ⟨line, List.mem_singleton.1 ht⟩
  | @cons line s ss t' d ts ds hyields _ ih =>
    rcases List.mem_append.1 ht with hhere | hlater
    · obtain rfl := Option.mem_toList.1 hhere
      exact .inr ⟨_, s, d, hyields⟩
    · exact ih hlater

theorem exists_of_diagnostic (h : YieldsAll line ss ts ds) {d : Diagnostic} (hd : d ∈ ds) :
    ∃ l s t, Segment.Yields l s t (some d) := by
  induction h with
  | nil line => cases hd
  | @cons line s ss t d' ts ds hyields _ ih =>
    rcases List.mem_append.1 hd with hhere | hlater
    · obtain rfl := Option.mem_toList.1 hhere
      exact ⟨_, s, t, hyields⟩
    · exact ih hlater

end YieldsAll

theorem Segment.Yields.number {line : Nat} {s : Segment} {t : Token} {d : Option Diagnostic}
    (h : s.Yields line (some t) d) (ht : t.kind = .number) : ∃ cs q n, Decimal cs q ∧
      Numeral.read? cs = some n ∧ t.lexeme = String.ofList cs ∧
      t.literal = some (.number n.toBinary64) := by
  cases h with
  | whole hd => exact ⟨_, _, _, .whole hd, Numeral.read?_whole hd, rfl, rfl⟩
  | fraction hd hf => exact ⟨_, _, _, .fraction hd hf, Numeral.read?_fraction hd hf, rfl, rfl⟩
  | _ => cases ht

/-- A scan reports characters that belong to no token and strings that do not end, never a
number. -/
theorem scan_messages (source : String) : ∀ d ∈ (Diagnostics.empty.scan source).2.items,
    d.message = "Unexpected character." ∨ d.message = "Unterminated string." := by
  intro d hd
  have hyields := (cut_segments source.toList).yieldsAll 1
  obtain ⟨l, s, t, hs⟩ := hyields.exists_of_diagnostic hd
  cases hs with
  | unclosed => exact .inr rfl
  | stray => exact .inl rfl

/-- The literal of a number token is the only one that its decimal rounds to. It is a number without
a sign, infinite or zero just where rounding makes it so, and no decimal is reported, be it among
other tokens or alone. -/
theorem scan_number_rounds {source : String} {t : Token}
    (ht : t ∈ (Diagnostics.empty.scan source).1) (hk : t.kind = .number) :
    ∃ q x, Decimal t.lexeme.toList q ∧ t.literal = some (.number x) ∧
      (∀ y : Binary64, y.Rounds q ↔ y = x) ∧
      (x.isInfinite = true ↔ 2 ^ 1024 - 2 ^ 970 ≤ q) ∧
      (x.magnitude.val = 0 ↔ q ≤ 1 / 2 ^ 1075) ∧
      x.negative = false ∧ x.isNaN = false ∧
      (∀ d ∈ (Diagnostics.empty.scan source).2.items,
        d.message = "Unexpected character." ∨ d.message = "Unterminated string.") ∧
      Diagnostics.empty.scan t.lexeme = ([{ t with line := 1 }, .eof 1], .empty) := by
  have hyields := (cut_segments source.toList).yieldsAll 1
  obtain ⟨l, rfl⟩ | ⟨l, s, d, hs⟩ := hyields.exists_of_token ht
  · cases hk
  obtain ⟨cs, q, n, hdecimal, hread, hlexeme, hliteral⟩ := hs.number hk
  obtain ⟨m, hm, rfl⟩ := hdecimal.exists_read?
  obtain rfl : n = m := Option.some.inj (hread.symm.trans hm)
  have hrounds := n.toBinary64_rounds
  have halone := hdecimal.scan_eq hread
  rw [← hlexeme, ← hliteral] at halone
  refine ⟨_, _, ?_, hliteral, fun y => ⟨fun hy => hy.unique hrounds, fun hy => hy ▸ hrounds⟩,
    hrounds.isInfinite_iff, n.toBinary64_eq_zero_iff, hrounds.negative_eq,
    hrounds.isNaN_eq, scan_messages source, ?_⟩
  · rw [hlexeme, String.toList_ofList]
    exact hdecimal
  · obtain ⟨kind, lexeme, literal, line⟩ := t
    obtain rfl : kind = .number := hk
    exact halone

theorem scan_number_rounds_halfway :
    ∃ t ∈ (Diagnostics.empty.scan "9007199254740993").1, t.kind = .number ∧
      ∃ q, Decimal t.lexeme.toList q ∧
        ∀ y : Binary64, y.Rounds q ↔ y = ⟨false, 0x4340000000000000⟩ := by
  let t : Token :=
    ⟨.number, "9007199254740993", some (.number ⟨false, 0x4340000000000000⟩), 1⟩
  have ht : t ∈ (Diagnostics.empty.scan "9007199254740993").1 := by decide +kernel
  obtain ⟨q, x, hdecimal, hliteral, hrounds, -⟩ := scan_number_rounds ht rfl
  obtain rfl : ⟨false, 0x4340000000000000⟩ = x := Literal.number.inj (Option.some.inj hliteral)
  exact ⟨t, ht, rfl, q, hdecimal, hrounds⟩

end LoxExpr
