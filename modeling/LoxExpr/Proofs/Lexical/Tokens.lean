import LoxExpr.Parsed
import LoxExpr.Proofs.Lexical.Longest
set_option autoImplicit false

namespace LoxExpr

namespace Numeral

theorem read?_whole {ds : List Char} (h : Digits ds) :
    read? ds = some ⟨Nat.ofDigitChars 10 ds 0, 0⟩ := by
  have hstop : ∀ c ∈ ([] : List Char).head?, c.isDigit = false := by simp
  have htake := takeWhile_run h.2 hstop
  have hdrop := dropWhile_run h.2 hstop
  rw [List.append_nil] at htake hdrop
  unfold read?
  rw [htake, hdrop]
  obtain ⟨d, cs, rfl⟩ := List.exists_cons_of_ne_nil h.1
  rfl

theorem read?_fraction {ds fs : List Char} (hd : Digits ds) (hf : Digits fs) :
    read? (ds ++ '.' :: fs) = some ⟨Nat.ofDigitChars 10 (ds ++ fs) 0, fs.length⟩ := by
  have hstop : ∀ c ∈ ('.' :: fs).head?, c.isDigit = false := by
    intro c hc
    cases hc
    decide
  unfold read?
  rw [takeWhile_run hd.2 hstop, dropWhile_run hd.2 hstop]
  obtain ⟨d, cs, rfl⟩ := List.exists_cons_of_ne_nil hd.1
  obtain ⟨f, gs, rfl⟩ := List.exists_cons_of_ne_nil hf.1
  have hall := List.all_eq_true.2 hf.2
  simp only [List.cons_append, hall, List.isEmpty_cons, Bool.not_false, Bool.and_true, if_true]

theorem digits_toDigits (n : Nat) : Digits (Nat.toDigits 10 n) :=
  ⟨Nat.toDigits_ne_nil, fun _ h => Nat.isDigit_of_mem_toDigits (by decide) (by decide) h⟩

def padded (x : Numeral) : List Char :=
  List.replicate (x.places + 1 - (Nat.toDigits 10 x.digits).length) '0' ++ Nat.toDigits 10 x.digits

theorem digits_padded (x : Numeral) : Digits x.padded := by
  obtain ⟨hne, hall⟩ := digits_toDigits x.digits
  refine ⟨by simp [padded, hne], fun c hc => ?_⟩
  rcases List.mem_append.1 hc with h | h
  · rw [List.eq_of_mem_replicate h]; decide
  · exact hall c h

theorem ofDigitChars_padded (x : Numeral) : Nat.ofDigitChars 10 x.padded 0 = x.digits := by
  rw [padded, Nat.ofDigitChars_append, Nat.ofDigitChars_replicate_zero, Nat.mul_zero,
    Nat.ofDigitChars_ten_toDigits]

theorem places_lt_padded (x : Numeral) : x.places < x.padded.length := by
  rw [padded, List.length_append, List.length_replicate]
  omega

theorem chars_whole {x : Numeral} (h : x.places = 0) : x.chars = Nat.toDigits 10 x.digits := by
  have hpos := Nat.length_toDigits_pos (b := 10) (n := x.digits)
  have hpad : 1 - (Nat.toDigits 10 x.digits).length = 0 := by omega
  simp [chars, h, hpad]

theorem chars_fraction {x : Numeral} (h : x.places ≠ 0) :
    x.chars = x.padded.take (x.padded.length - x.places) ++
      '.' :: x.padded.drop (x.padded.length - x.places) := by
  rw [chars, if_neg h]
  rfl

theorem chars_cases (x : Numeral) : (x.places = 0 ∧ x.chars = Nat.toDigits 10 x.digits) ∨
    ∃ ds fs, x.chars = ds ++ '.' :: fs ∧ Digits ds ∧ Digits fs ∧
      Nat.ofDigitChars 10 (ds ++ fs) 0 = x.digits ∧ fs.length = x.places := by
  by_cases h : x.places = 0
  · exact .inl ⟨h, chars_whole h⟩
  · have hlt := places_lt_padded x
    refine .inr ⟨_, _, chars_fraction h, (digits_padded x).take (by omega),
      (digits_padded x).drop (by omega), ?_, ?_⟩
    · rw [List.take_append_drop, ofDigitChars_padded]
    · rw [List.length_drop]
      omega

theorem lexeme_chars (x : Numeral) : Lexeme .number x.chars := by
  rcases x.chars_cases with ⟨-, hchars⟩ | ⟨ds, fs, hchars, hd, hf, -, -⟩
  · rw [hchars]
    exact .whole (digits_toDigits x.digits)
  · rw [hchars]
    exact .fraction hd hf

theorem read?_chars (x : Numeral) : read? x.chars = some x := by
  rcases x.chars_cases with ⟨hplaces, hchars⟩ | ⟨ds, fs, hchars, hd, hf, hvalue, hlen⟩
  · rw [hchars, read?_whole (digits_toDigits x.digits), Nat.ofDigitChars_ten_toDigits, ← hplaces]
  · rw [hchars, read?_fraction hd hf, hvalue, hlen]

end Numeral

inductive Segment.Yields (line : Nat) : Segment → Option Token → Option Diagnostic → Prop where
  | blank {cs : List Char} : Yields line ⟨.blank, cs⟩ none none
  | comment {cs : List Char} : Yields line ⟨.comment, cs⟩ none none
  | symbol {s : Symbol} {cs : List Char} :
      Yields line ⟨.symbol s, cs⟩ (some ⟨.symbol s, String.ofList cs, none, line⟩) none
  | whole {ds : List Char} : Digits ds →
      Yields line ⟨.number, ds⟩ (some ⟨.number, String.ofList ds,
        some (.number (.nearest (Nat.ofDigitChars 10 ds 0) 1)), line⟩) none
  | fraction {ds fs : List Char} : Digits ds → Digits fs →
      Yields line ⟨.number, ds ++ '.' :: fs⟩ (some ⟨.number, String.ofList (ds ++ '.' :: fs),
        some (.number (.nearest (Nat.ofDigitChars 10 (ds ++ fs) 0) (Nat.pow 10 fs.length))),
        line⟩) none
  | keyword {k : Keyword} {cs : List Char} : String.ofList cs = k.text →
      Yields line ⟨.word, cs⟩ (some ⟨.keyword k, String.ofList cs, none, line⟩) none
  | identifier {cs : List Char} : (∀ k : Keyword, String.ofList cs ≠ k.text) →
      Yields line ⟨.word, cs⟩ (some ⟨.identifier, String.ofList cs, none, line⟩) none
  | string {body : List Char} :
      Yields line ⟨.string, '"' :: (body ++ ['"'])⟩ (some ⟨.string,
        String.ofList ('"' :: (body ++ ['"'])), some (.str (String.ofList body)), line⟩) none
  | unclosed {cs : List Char} :
      Yields line ⟨.unclosed, cs⟩ none (some ⟨line, .line, "Unterminated string."⟩)
  | stray {cs : List Char} :
      Yields line ⟨.stray, cs⟩ none (some ⟨line, .line, "Unexpected character."⟩)

/-- What segments are read as of which the first begins on a line. -/
inductive YieldsAll : Nat → List Segment → List Token → List Diagnostic → Prop where
  | nil (line : Nat) : YieldsAll line [] [.eof line] []
  | cons {line : Nat} {s : Segment} {ss : List Segment} {t : Option Token} {d : Option Diagnostic}
      {ts : List Token} {ds : List Diagnostic} :
      s.Yields (line + s.chars.count '\n') t d → YieldsAll (line + s.chars.count '\n') ss ts ds →
      YieldsAll line (s :: ss) (t.toList ++ ts) (d.toList ++ ds)

namespace Reading

def token? : Reading → Option Token
  | token t => some t
  | _ => none

def diagnostic? : Reading → Option Diagnostic
  | error e => some e.diagnostic
  | _ => none

end Reading

namespace Scan

def diagnostics (scan : Scan) : List Diagnostic := scan.errors.map LexError.diagnostic

theorem tokens_add (scan : Scan) (r : Reading) :
    (scan.add r).tokens = r.token?.toList ++ scan.tokens := by cases r <;> rfl

theorem diagnostics_add (scan : Scan) (r : Reading) :
    (scan.add r).diagnostics = r.diagnostic?.toList ++ scan.diagnostics := by cases r <;> rfl

end Scan

namespace Segment

theorem reading_number {cs : List Char} {x : Numeral} (h : Numeral.read? cs = some x)
    (line : Nat) : reading ⟨.number, cs⟩ line =
      .token ⟨.number, String.ofList cs, some (.number x.toBinary64), line⟩ := by
  simp [reading, lexeme, h]

theorem reading_keyword {cs : List Char} {k : Keyword}
    (h : Keyword.ofText? (String.ofList cs) = some k) (line : Nat) :
    reading ⟨.word, cs⟩ line = .token ⟨.keyword k, String.ofList cs, none, line⟩ := by
  simp [reading, lexeme, h]

theorem reading_identifier {cs : List Char} (h : Keyword.ofText? (String.ofList cs) = none)
    (line : Nat) :
    reading ⟨.word, cs⟩ line = .token ⟨.identifier, String.ofList cs, none, line⟩ := by
  simp [reading, lexeme, h]

theorem reading_string (body : List Char) (line : Nat) :
    reading ⟨.string, '"' :: (body ++ ['"'])⟩ line = .token ⟨.string,
      String.ofList ('"' :: (body ++ ['"'])), some (.str (String.ofList body)), line⟩ := by
  simp [reading, lexeme]

end Segment

theorem Lexeme.yields {shape : Shape} {cs : List Char} (h : Lexeme shape cs) (line : Nat) :
    Segment.Yields line ⟨shape, cs⟩ (Segment.reading ⟨shape, cs⟩ line).token?
      (Segment.reading ⟨shape, cs⟩ line).diagnostic? := by
  cases h with
  | symbol s => exact .symbol
  | whole hd =>
    rw [Segment.reading_number (Numeral.read?_whole hd)]
    exact .whole hd
  | fraction hd hf =>
    rw [Segment.reading_number (Numeral.read?_fraction hd hf)]
    exact .fraction hd hf
  | @word c cs _ _ =>
    cases hk : Keyword.ofText? (String.ofList (c :: cs)) with
    | some k =>
      rw [Segment.reading_keyword hk]
      exact .keyword (Keyword.text_of_ofText? hk).symm
    | none =>
      rw [Segment.reading_identifier hk]
      refine .identifier fun k heq => ?_
      rw [heq, Keyword.ofText?_text] at hk
      cases hk
  | @string body _ =>
    rw [Segment.reading_string]
    exact .string
  | comment _ => exact .comment
  | blank _ => exact .blank

theorem First.yields {text rest : List Char} {s : Segment} (h : First text s rest) (line : Nat) :
    s.Yields line (s.reading line).token? (s.reading line).diagnostic? := by
  cases h with
  | lexeme hl _ => exact hl.yields line
  | unclosed _ => exact .unclosed
  | stray _ _ => exact .stray

theorem Cut.yieldsAll {text : List Char} {ss : List Segment} (h : Cut text ss) (line : Nat) :
    YieldsAll line ss (Scan.ofSegments line ss).tokens (Scan.ofSegments line ss).diagnostics := by
  induction h generalizing line with
  | nil => exact .nil line
  | cons hfirst _ ih =>
    rw [Scan.ofSegments, Scan.tokens_add, Scan.diagnostics_add]
    exact .cons (hfirst.yields _) (ih _)

/-- A text has exactly one cutting into segments, in which no character is lost, and a scan is what
these segments are read as. -/
theorem scan_longest (source : String) :
    ∃ ss : List Segment, Cut source.toList ss ∧ (∀ us, Cut source.toList us → us = ss) ∧
      ss.flatMap Segment.chars = source.toList ∧ (∀ s ∈ ss, s.chars ≠ []) ∧
      YieldsAll 1 ss (Diagnostics.empty.scan source).1 (Diagnostics.empty.scan source).2.items := by
  have h := cut_segments source.toList
  refine ⟨segments source.toList, h, fun us hu => hu.eq_segments, h.flatMap_chars,
    h.chars_ne_nil, ?_⟩
  exact h.yieldsAll 1

end LoxExpr
