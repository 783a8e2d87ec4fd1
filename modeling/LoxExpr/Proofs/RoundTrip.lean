import LoxExpr.Proofs.Grammar.Acceptance
import LoxExpr.Proofs.Grammar.Written
import LoxExpr.Proofs.Lexical.Layout
import LoxExpr.Proofs.Number.Shortest
set_option autoImplicit false

/-!
The text of a tree leads back to the tree: its lexemes are scanned as its tokens, and from these the
tree is read. Nothing is lost but the lines of operators, which are those of the text.
-/

namespace LoxExpr

theorem Token.spelled_symbol (s : Symbol) (line : Nat) :
    Token.Spelled ⟨.symbol s, s.text, none, line⟩ := by
  refine ⟨.symbol s, by simp, .symbol s, fun last => ?_⟩
  simp [Segment.reading, Segment.lexeme]

theorem Token.IsOperator.spelled {t : Token} (h : t.IsOperator) : t.Spelled := by
  obtain ⟨s, hkind, hlexeme, hliteral⟩ := h
  obtain ⟨kind, lexeme, literal, line⟩ := t
  dsimp only at hkind hlexeme hliteral
  rw [hkind, hlexeme, hliteral]
  exact spelled_symbol s line

theorem Lexeme.keyword (k : Keyword) : Lexeme .word k.text.toList := by
  have hstart : k.text.toList.head?.any isWordStart = true := by cases k <;> decide
  have hpart : k.text.toList.all isWordPart = true := by cases k <;> decide
  revert hstart hpart
  cases k.text.toList with
  | nil => intro hstart; cases hstart
  | cons c cs =>
    intro hstart hpart
    refine .word (isWordStart_iff.1 hstart) fun d hd => isWordPart_iff.1 ?_
    exact List.all_eq_true.1 hpart d (List.mem_cons_of_mem c hd)

theorem Token.spelled_keyword (k : Keyword) (line : Nat) :
    Token.Spelled ⟨.keyword k, k.text, none, line⟩ := by
  refine ⟨.word, by simp, .keyword k, fun last => ?_⟩
  have hk : Keyword.ofText? (String.ofList k.text.toList) = some k := by
    rw [String.ofList_toList]
    exact Keyword.ofText?_text k
  rw [Segment.reading_keyword hk, String.ofList_toList]

theorem Literal.Writable.spelled {v : Literal} (h : v.Writable) : v.token.Spelled := by
  cases v with
  | number x =>
    obtain ⟨hfinite, hsign⟩ := h
    have htext := Binary64.text_of_isFinite hfinite hsign
    have hchars : x.text.toList = (Binary64.shortest x.magnitude.val).chars := by
      rw [htext, Numeral.text, String.toList_ofList]
    refine ⟨.number, by simp, ?_, fun last => ?_⟩
    · rw [token, hchars]
      exact Numeral.lexeme_chars _
    · have hread := Numeral.read?_chars (Binary64.shortest x.magnitude.val)
      rw [← hchars] at hread
      rw [token, Segment.reading_number hread, Binary64.toBinary64_shortest hfinite hsign,
        String.ofList_toList]
  | str s =>
    have hchars : ("\"" ++ s ++ "\"").toList = '"' :: (s.toList ++ ['"']) := by simp
    refine ⟨.string, by simp, ?_, fun last => ?_⟩
    · rw [token, hchars]
      exact .string h
    · rw [token, hchars, Segment.reading_string, ← hchars, String.ofList_toList,
        String.ofList_toList]
  | bool b =>
    cases b with
    | true => exact Token.spelled_keyword .«true» 1
    | false => exact Token.spelled_keyword .«false» 1
  | nil => exact Token.spelled_keyword .«nil» 1

theorem Expr.Binds.spelled {n : Nat} {e : Expr} (h : e.Binds n) : ∀ t ∈ e.tokens, t.Spelled := by
  induction h with
  | literal hv =>
    intro t ht
    obtain rfl := List.mem_singleton.1 ht
    exact hv.spelled
  | grouping _ ih =>
    intro t ht
    rcases List.mem_cons.1 ht with rfl | ht
    · exact Token.spelled_symbol .leftParen 1
    · rcases List.mem_append.1 ht with ht | ht
      · exact ih t ht
      · obtain rfl := List.mem_singleton.1 ht
        exact Token.spelled_symbol .rightParen 1
  | unary hop _ _ _ ih =>
    intro t ht
    rcases List.mem_cons.1 ht with rfl | ht
    · exact hop.spelled
    · exact ih t ht
  | binary hop _ _ _ _ _ ihl ihr =>
    intro t ht
    rcases List.mem_append.1 ht with ht | ht
    · exact ihl t ht
    · rcases List.mem_cons.1 ht with rfl | ht
      · exact hop.spelled
      · exact ihr t ht

namespace Parser

theorem parse_of_derives {ts : List Token} {e : Expr} (h : Derives .expression ts e)
    (hn : e.nesting < maxNesting) (line : Nat) (ds : Diagnostics) :
    ∃ q, (ofTokens (ts ++ [.eof line])).parse ds = (some e, q, ds) := by
  rw [parse, parseExpression_of_derives h hn line]
  exact ⟨_, rfl⟩

end Parser

namespace Parsed

/-- The text of a tree that binds and is not nested too deeply has this tree, with other lines at
most, and nothing to report. -/
theorem ofText_source {n : Nat} {e : Expr} (h : e.Binds n) (hn : e.nesting ≤ maxNesting - 1) :
    (ofText e.source).isClean = true ∧ ∃ f : Expr, (ofText e.source).expr = some f ∧
      f.unplaced = e.unplaced ∧ f.parenthesized = e.parenthesized := by
  obtain ⟨ts, last, hscan, hts⟩ := Scan.ofChars_spaced h.spelled 1
  obtain ⟨f, hf, hd⟩ := h.derives hts
  have hnesting : f.nesting < maxNesting := by
    have hpos : 0 < maxNesting := by decide
    rw [← Expr.nesting_unplaced, hf, Expr.nesting_unplaced]
    omega
  have hprint : f.parenthesized = e.parenthesized := by
    rw [← Expr.parenthesized_unplaced, hf, Expr.parenthesized_unplaced]
  obtain ⟨q, hparse⟩ := Parser.parse_of_derives (.expression (hd.loosen (Nat.zero_le n))) hnesting
    last Diagnostics.empty
  have htext : ofText e.source = ⟨some f, Diagnostics.empty⟩ := by
    have hsource : Diagnostics.empty.scan e.source = (ts ++ [.eof last], Diagnostics.empty) := by
      rw [Diagnostics.scan, Scan.ofText, Expr.source, hscan]
      rfl
    rw [ofText, Diagnostics.parse, hsource]
    dsimp only
    rw [hparse]
  rw [htext]
  exact ⟨rfl, f, rfl, hf, hprint⟩

def ladder : Expr :=
  let op (s : Symbol) (line : Nat) : Token := ⟨.symbol s, s.text, none, line⟩
  let group : Expr := .grouping (.binary (.literal (.str "// 1\n)")) (op .plus 0)
    (.literal (.number ⟨false, 0x3fb999999999999a⟩)))
  let product : Expr :=
    .binary (.unary (op .minus 7) group) (op .star 3) (.unary (op .bang 2) (.literal .nil))
  .binary (.binary product (op .lessEqual 9) (.literal (.number ⟨false, 0x444b1ae4d6e2ef50⟩)))
    (op .equalEqual 1) (.literal (.bool true))

theorem ladder_binds : ladder.Binds 0 := by
  have hop (s : Symbol) (line : Nat) : Token.IsOperator ⟨.symbol s, s.text, none, line⟩ :=
    ⟨s, rfl, rfl, rfl⟩
  have hstr : Literal.Writable (.str "// 1\n)") := by simp [Literal.Writable]
  have htenth : Literal.Writable (.number ⟨false, 0x3fb999999999999a⟩) := ⟨by decide, rfl⟩
  have hlarge : Literal.Writable (.number ⟨false, 0x444b1ae4d6e2ef50⟩) := ⟨by decide, rfl⟩
  have hnil : Literal.Writable .nil := trivial
  have htrue : Literal.Writable (.bool true) := trivial
  have hsum := Expr.Binds.binary (hop .plus 0) .plus (.literal hstr) (by decide) (.literal htenth)
    (by decide)
  have hminus := Expr.Binds.unary (hop .minus 7) .minus (.grouping hsum) (by decide)
  have hbang := Expr.Binds.unary (hop .bang 2) .bang (.literal hnil) (by decide)
  have hproduct := Expr.Binds.binary (hop .star 3) .star hminus (by decide) hbang (by decide)
  have hcompare := Expr.Binds.binary (hop .lessEqual 9) .lessEqual hproduct (by decide)
    (.literal hlarge) (by decide)
  exact .binary (hop .equalEqual 1) .equal hcompare (by decide) (.literal htrue) (by decide)

theorem ofText_source_ladder :
    ladder.source = "- ( \"// 1\n)\" + 0.1 ) * ! nil <= 1000000000000000000000 == true" ∧
      (ofText ladder.source).isClean = true ∧ ∃ f : Expr, (ofText ladder.source).expr = some f ∧
        f.unplaced = ladder.unplaced ∧ f.parenthesized = ladder.parenthesized :=
  ⟨by decide +kernel, ofText_source ladder_binds (by decide)⟩

end Parsed

end LoxExpr
