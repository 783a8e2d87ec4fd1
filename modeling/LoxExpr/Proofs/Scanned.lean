import LoxExpr.Proofs.Lexical.Layout
import LoxExpr.Proofs.Lexical.Numbers
import LoxExpr.Proofs.Reports
set_option autoImplicit false

namespace LoxExpr

/-- The characters from one offset up to another, if these are offsets into the text, in order. -/
def slice? (text : List Char) (start stop : Nat) : Option (List Char) :=
  if start ≤ stop ∧ stop ≤ text.length then some ((text.take stop).drop start) else none

theorem slice?_append (front body rest : List Char) :
    slice? (front ++ (body ++ rest)) front.length (front.length + body.length) = some body := by
  have hin : front.length ≤ front.length + body.length ∧
      front.length + body.length ≤ (front ++ (body ++ rest)).length := by
    simp only [List.length_append]
    omega
  rw [slice?, if_pos hin, ← List.append_assoc, ← List.length_append, List.take_left,
    List.drop_left]

theorem Symbol.text_ne_empty (s : Symbol) : s.text ≠ "" := by cases s <;> decide

theorem Keyword.text_ne_empty (k : Keyword) : k.text ≠ "" := by cases k <;> decide

namespace Token

inductive Form : Token → Prop where
  | symbol (s : Symbol) (line : Nat) : Form ⟨.symbol s, s.text, none, line⟩
  | number {us : List Char} {n : Numeral} (line : Nat) : us ≠ [] → Numeral.read? us = some n →
      Form ⟨.number, String.ofList us, some (.number n.toBinary64), line⟩
  | string {v : String} (line : Nat) : '"' ∉ v.toList →
      Form ⟨.string, "\"" ++ v ++ "\"", some (.str v), line⟩
  | keyword (k : Keyword) (line : Nat) : Form ⟨.keyword k, k.text, none, line⟩
  | identifier {name : String} (line : Nat) : name ≠ "" → Form ⟨.identifier, name, none, line⟩

/-- Apart from the end of the text, tokens have a lexeme, and just numbers and strings a value. -/
structure WellFormed (t : Token) : Prop where
  kind_ne_eof : t.kind ≠ .eof
  lexeme_ne_empty : t.lexeme ≠ ""
  number_value : t.kind = .number → ∃ x, t.literal = some (.number x)
  string_value : t.kind = .string → ∃ v : String, t.literal = some (.str v) ∧
    t.lexeme = "\"" ++ v ++ "\"" ∧ '"' ∉ v.toList
  no_value : t.kind ≠ .number → t.kind ≠ .string → t.literal = none

inductive Carries (t : Token) : Literal → Prop where
  | number {x : Binary64} : t.kind = .number → t.literal = some (.number x) → Carries t (.number x)
  | string {v : String} : t.kind = .string → t.literal = some (.str v) → Carries t (.str v)
  | yes : t.kind = .keyword .«true» → Carries t (.bool true)
  | no : t.kind = .keyword .«false» → Carries t (.bool false)
  | nothing : t.kind = .keyword .«nil» → Carries t .nil

theorem ofList_ne_empty {us : List Char} (h : us ≠ []) : String.ofList us ≠ "" := by
  intro hempty
  have hnil := congrArg String.toList hempty
  rw [String.toList_ofList] at hnil
  exact h hnil

theorem Spelled.form {t : Token} (h : t.Spelled) : t.Form := by
  obtain ⟨kind, lexeme, literal, line⟩ := t
  obtain ⟨shape, hshape, hlexeme, hreading⟩ := h
  have hline := hreading line
  have htext : lexeme = String.ofList lexeme.toList := String.ofList_toList.symm
  dsimp only at hlexeme hline
  generalize lexeme.toList = us at hlexeme hline htext
  subst htext
  cases hlexeme with
  | symbol s =>
    cases hline
    rw [String.ofList_toList]
    exact .symbol s line
  | whole hd =>
    rw [Segment.reading_number (Numeral.read?_whole hd)] at hline
    cases hline
    exact .number line hd.1 (Numeral.read?_whole hd)
  | fraction hd hf =>
    rw [Segment.reading_number (Numeral.read?_fraction hd hf)] at hline
    cases hline
    exact .number line (by simp) (Numeral.read?_fraction hd hf)
  | @word c cs _ _ =>
    cases hk : Keyword.ofText? (String.ofList (c :: cs)) with
    | some k =>
      rw [Segment.reading_keyword hk] at hline
      cases hline
      rw [← Keyword.text_of_ofText? hk]
      exact .keyword k line
    | none =>
      rw [Segment.reading_identifier hk] at hline
      cases hline
      exact .identifier line (ofList_ne_empty (by simp))
  | @string body hb =>
    rw [Segment.reading_string] at hline
    cases hline
    have hquoted : String.ofList ('"' :: (body ++ ['"'])) = "\"" ++ String.ofList body ++ "\"" := by
      apply String.ext
      simp
    rw [hquoted]
    exact .string line (by simpa using hb)
  | comment _ => exact absurd rfl hshape
  | blank _ => cases hline

theorem Form.wellFormed {t : Token} (h : t.Form) : t.WellFormed := by
  cases h with
  | symbol s line =>
    exact ⟨by simp, s.text_ne_empty, by simp, by simp, fun _ _ => rfl⟩
  | @number us n line hus hread =>
    exact ⟨by simp, ofList_ne_empty hus, fun _ => ⟨_, rfl⟩, by simp, by simp⟩
  | @string v line hv =>
    refine ⟨by simp, ?_, by simp, fun _ => ⟨v, rfl, rfl, hv⟩, by simp⟩
    intro hempty
    have hlength := congrArg String.length hempty
    simp at hlength
  | keyword k line =>
    exact ⟨by simp, k.text_ne_empty, by simp, by simp, fun _ _ => rfl⟩
  | identifier line hname => exact ⟨by simp, hname, by simp, by simp, fun _ _ => rfl⟩

theorem WellFormed.carries {t : Token} {v : Literal} (h : t.WellFormed) (hv : t.Denotes v) :
    t.Carries v := by
  cases hv with
  | number hkind hliteral =>
    obtain ⟨x, hx⟩ := h.number_value hkind
    obtain rfl := Option.some.inj (hliteral.symm.trans hx)
    exact .number hkind hliteral
  | string hkind hliteral =>
    obtain ⟨s, hs, -, -⟩ := h.string_value hkind
    obtain rfl := Option.some.inj (hliteral.symm.trans hs)
    exact .string hkind hliteral
  | yes hkind => exact .yes hkind
  | no hkind => exact .no hkind
  | nothing hkind => exact .nothing hkind

end Token

/-- Every operator in the tree is one of the tokens, of a kind that may stand where it does, and
every value comes from a token of the kind that belongs to it. -/
inductive Expr.DrawnFrom (ts : List Token) : Expr → Prop where
  | literal {t : Token} {v : Literal} : t ∈ ts → t.Carries v → DrawnFrom ts (.literal v)
  | grouping {e : Expr} : DrawnFrom ts e → DrawnFrom ts (.grouping e)
  | unary {op : Token} {e : Expr} :
      op ∈ ts → op.kind.Prefixes → DrawnFrom ts e → DrawnFrom ts (.unary op e)
  | binary {l : Level} {op : Token} {left right : Expr} :
      DrawnFrom ts left → op ∈ ts → l.Joins op.kind → DrawnFrom ts right →
      DrawnFrom ts (.binary left op right)

theorem Derives.drawnFrom {ts us : List Token} {e : Expr} (h : Derives .expression us e)
    (hus : us ⊆ ts) (hts : ∀ t ∈ ts, t.WellFormed) : e.DrawnFrom ts :=
  h.tree_induction (fun ht hv => .literal ht ((hts _ ht).carries hv)) .grouping .unary .binary hus
    (by intro l left h; cases h)

theorem Scan.form_of_mem_body {source : String} {t : Token} (h : t ∈ (Scan.ofText source).body) :
    t.Form :=
  (spelled_of_mem_body h).form

theorem First.string_chars {text rest : List Char} {s : Segment} (h : First text s rest)
    (hs : s.shape = .string) : ∃ body, s = ⟨.string, '"' :: (body ++ ['"'])⟩ := by
  obtain ⟨shape, chars⟩ := s
  subst hs
  cases h with
  | lexeme hl _ =>
    cases hl with
    | @string body _ => exact ⟨body, rfl⟩

theorem Cut.slice?_string {text : List Char} {front rest : List Segment} {s : Segment}
    (h : Cut text (front ++ s :: rest)) (hs : s.shape = .string) :
    ∃ v, slice? text ((front.flatMap Segment.chars).length + 1)
        ((front.flatMap Segment.chars).length + s.chars.length - 1) = some v ∧
      ∀ line, s.Yields line
        (some ⟨.string, String.ofList s.chars, some (.str (String.ofList v)), line⟩) none := by
  have htext := h.flatMap_chars
  obtain ⟨us, after, hfirst⟩ := h.first_of_mem s (by simp)
  obtain ⟨body, rfl⟩ := hfirst.string_chars hs
  have hslice := slice?_append (front.flatMap Segment.chars ++ ['"']) body
    ('"' :: rest.flatMap Segment.chars)
  have hsource : text = front.flatMap Segment.chars ++ ['"'] ++
      (body ++ '"' :: rest.flatMap Segment.chars) := by
    rw [← htext, List.flatMap_append, List.flatMap_cons]
    simp
  have hstop : (front.flatMap Segment.chars).length + ('"' :: (body ++ ['"'])).length - 1 =
      (front.flatMap Segment.chars ++ ['"']).length + body.length := by
    simp only [List.length_append, List.length_cons, List.length_nil]
    omega
  rw [← hsource, ← hstop, List.length_append, List.length_singleton] at hslice
  exact ⟨body, hslice, fun line => .string⟩

theorem SyntaxError.message_ne_literalValue {r : Reason}
    (h : r = .expectExpression ∨ r = .expectRightParen ∨ r = .tooMuchNesting) :
    r.message ≠ "Expect literal value." := by
  rcases h with rfl | rfl | rfl <;> decide

namespace Parser

/-- On tokens of which only the last is an end of the text, and the others are well-formed, reading
gives a tree drawn from them, or an error other than a literal without a value. -/
theorem parseExpression_of_wellFormed {ts : List Token} (hts : ∀ t ∈ ts, t.WellFormed)
    (line : Nat) :
    (∃ e, (ofTokens (ts ++ [.eof line])).parseExpression.1 = .ok e ∧ e.DrawnFrom ts) ∨
      ∃ e : SyntaxError, (ofTokens (ts ++ [.eof line])).parseExpression.1 = .error e ∧
        e.reason.message ≠ "Expect literal value." := by
  have hclosed := closed_append_eof (t := .eof line) ts rfl
  rw [parseExpression, ahead_ofTokens, hclosed]
  cases hrun : (Rule.expression maxNesting).run (ts ++ [.eof line]) with
  | mk r rest =>
    cases r with
    | ok e =>
      obtain ⟨us, hcut, hd, -, -⟩ := (Rule.reads_expression maxNesting _ rest e).1 hrun
      obtain ⟨left, rfl, -⟩ := append_eq_append_eof (t := .eof line) rfl hd.kind_ne_eof hcut
      exact .inl ⟨e, rfl, hd.drawnFrom (List.subset_append_left us left) hts⟩
    | error e =>
      obtain ⟨us, hcut, hus, hfail⟩ := Rule.blames_expression maxNesting _ e rest hrun
      obtain ⟨left, rfl, -⟩ := append_eq_append_eof (t := .eof line) rfl hus hcut
      refine .inr ⟨e, rfl, ?_⟩
      cases hfail with
      | unusable hreason _ _ =>
        exact SyntaxError.message_ne_literalValue (hreason.imp_right .inl)
      | tooDeep _ => exact SyntaxError.message_ne_literalValue (.inr (.inr rfl))
      | @valueless front _ t hrole _ _ =>
        -- The token would be among those taken, and without a value it is not well-formed.
        obtain ⟨hkind, hliteral⟩ := Token.role_eq_valueless_iff.1 hrole
        have ht := hts t (by simp)
        rcases hkind with hk | hk
        · obtain ⟨x, hx⟩ := ht.number_value hk
          rw [hliteral] at hx
          cases hx
        · obtain ⟨v, hv, -, -⟩ := ht.string_value hk
          rw [hliteral] at hv
          cases hv

end Parser

namespace LexError

theorem head?_message_invalidNumber (numeral : String) :
    (Reason.invalidNumber numeral).message.toList.head? = some 'I' := by
  have hmessage : (Reason.invalidNumber numeral).message =
      "Invalid number literal '" ++ numeral ++ "'." := rfl
  rw [hmessage, String.toList_append, String.toList_append]
  simp

theorem message_ne_invalidNumber {message : String} (numeral : String)
    (h : message = "Unexpected character." ∨ message = "Unterminated string.") :
    message ≠ (Reason.invalidNumber numeral).message := by
  intro heq
  have hhead := head?_message_invalidNumber numeral
  rw [← heq] at hhead
  rcases h with rfl | rfl
  · simp at hhead
  · simp at hhead

end LexError

theorem Accounts.of_wellFormed {ts : List Token} {line : Nat} {expr : Option Expr}
    {syntactic : List Diagnostic} (h : Accounts (ts ++ [.eof line]) expr syntactic)
    (hts : ∀ t ∈ ts, t.WellFormed) :
    (∀ d ∈ syntactic, d.message ≠ "Expect literal value.") ∧
      ∀ e, expr = some e → e.DrawnFrom ts := by
  have hresult := Parser.parseExpression_of_wellFormed hts line
  cases h with
  | @tree e q hrun =>
    rw [hrun] at hresult
    obtain ⟨x, hx, hdrawn⟩ | ⟨x, hx, -⟩ := hresult
    · cases hx
      exact ⟨by simp, fun x hx => Option.some.inj hx ▸ hdrawn⟩
    · cases hx
  | @error e q d hrun _ _ hmessage =>
    rw [hrun] at hresult
    obtain ⟨x, hx, -⟩ | ⟨x, hx, hne⟩ := hresult
    · cases hx
    · cases hx
      exact ⟨by simpa [hmessage] using hne, by simp⟩

theorem Parsed.drawnFrom_body {source : String} {e : Expr} (h : (ofText source).expr = some e) :
    e.DrawnFrom (Scan.ofText source).body := by
  obtain ⟨syntactic, -, haccounts⟩ := Diagnostics.ofText_accounts source
  rw [Scan.ofText_tokens] at haccounts
  exact (haccounts.of_wellFormed fun t ht => (Scan.form_of_mem_body ht).wellFormed).2 e h

/-- A scan is a list of well-formed tokens with one end of the text behind them, and the parser
keeps it as it is. The value of a string is what stands between its quotes, which lie inside the
text. No number is reported by the scan, and no literal by the parser for want of a value; all that
a tree is made of comes from tokens of the kinds that it needs. -/
theorem scan_wellFormed (source : String) :
    ∃ ts line, (Diagnostics.empty.scan source).1 = ts ++ [.eof line] ∧
      (∀ t ∈ ts, t.WellFormed) ∧
      (∀ front s rest, Cut source.toList (front ++ s :: rest) → s.shape = .string →
        ∃ v, slice? source.toList ((front.flatMap Segment.chars).length + 1)
            ((front.flatMap Segment.chars).length + s.chars.length - 1) = some v ∧
          ∀ last, s.Yields last
            (some ⟨.string, String.ofList s.chars, some (.str (String.ofList v)), last⟩) none) ∧
      (∀ d ∈ (Diagnostics.empty.scan source).2.items, ∀ numeral,
        d.message ≠ (LexError.Reason.invalidNumber numeral).message) ∧
      (Parser.ofTokens (ts ++ [.eof line])).tokens = ts ++ [.eof line] ∧
      (∀ d ∈ (Parsed.ofText source).diagnostics.items, d.message ≠ "Expect literal value.") ∧
      ∀ e, (Parsed.ofText source).expr = some e → e.DrawnFrom ts := by
  have htokens := Scan.ofText_tokens source
  have hbody : ∀ t ∈ (Scan.ofText source).body, t.WellFormed := fun t ht =>
    (Scan.form_of_mem_body ht).wellFormed
  obtain ⟨syntactic, hitems, haccounts⟩ := Diagnostics.ofText_accounts source
  rw [htokens] at haccounts
  obtain ⟨hsyntactic, hdrawn⟩ := haccounts.of_wellFormed hbody
  refine ⟨_, _, htokens, hbody, fun front s rest hcut hs => hcut.slice?_string hs,
    fun d hd numeral => LexError.message_ne_invalidNumber numeral (scan_messages source d hd),
    Parser.closed_append_eof _ rfl, fun d hd => ?_, hdrawn⟩
  rw [hitems] at hd
  rcases List.mem_append.1 hd with hlexical | hd
  · rcases scan_messages source d hlexical with hm | hm <;> rw [hm] <;> decide
  · exact hsyntactic d hd

theorem scan_wellFormed_comparison :
    ∃ ts line, (Diagnostics.empty.scan "\"ab\" == 1.5").1 = ts ++ [.eof line] ∧
      (∀ t ∈ ts, t.WellFormed) ∧ slice? "\"ab\" == 1.5".toList 1 3 = some ['a', 'b'] ∧
      (∀ last, Segment.Yields last ⟨.string, ['"', 'a', 'b', '"']⟩ (some ⟨.string,
        String.ofList ['"', 'a', 'b', '"'], some (.str (String.ofList ['a', 'b'])), last⟩) none) ∧
      ∃ e, (Parsed.ofText "\"ab\" == 1.5").expr = some e ∧ e.DrawnFrom ts := by
  obtain ⟨ts, line, hscan, hts, hslice, -, -, -, hdrawn⟩ := scan_wellFormed "\"ab\" == 1.5"
  have hsegments : segments "\"ab\" == 1.5".toList =
      [] ++ ⟨.string, ['"', 'a', 'b', '"']⟩ :: (segments "\"ab\" == 1.5".toList).tail := by
    decide +kernel
  obtain ⟨v, hv, hyields⟩ := hslice _ _ _ (hsegments ▸ cut_segments _) rfl
  have hbody : slice? "\"ab\" == 1.5".toList 1 3 = some ['a', 'b'] := by decide +kernel
  obtain rfl : ['a', 'b'] = v := Option.some.inj (hbody.symm.trans hv)
  have hexpr : (Parsed.ofText "\"ab\" == 1.5").expr = some (.binary (.literal (.str "ab"))
      ⟨.symbol .equalEqual, "==", none, 1⟩ (.literal (.number ⟨false, 0x3ff8000000000000⟩))) := by
    decide +kernel
  exact ⟨ts, line, hscan, hts, hbody, hyields, _, hexpr, hdrawn _ hexpr⟩

end LoxExpr
