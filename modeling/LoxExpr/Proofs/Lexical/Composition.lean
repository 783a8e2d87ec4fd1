import LoxExpr.Proofs.Lexical.Tokens
set_option autoImplicit false

namespace LoxExpr

def Token.below (k : Nat) (t : Token) : Token := { t with line := t.line + k }

def LexError.below (k : Nat) (e : LexError) : LexError := { e with line := e.line + k }

def Diagnostic.below (k : Nat) (d : Diagnostic) : Diagnostic := { d with line := d.line + k }

def Reading.below (k : Nat) : Reading → Reading
  | .nothing => .nothing
  | .token t => .token (t.below k)
  | .error e => .error (e.below k)

namespace Segment

theorem reading_add (s : Segment) (line k : Nat) :
    s.reading (line + k) = (s.reading line).below k := by
  obtain ⟨shape, chars⟩ := s
  cases shape with
  | number =>
    simp only [reading]
    cases Numeral.read? chars with
    | none => rfl
    | some x => rfl
  | _ => rfl

def lines (ss : List Segment) : Nat := (ss.flatMap chars).count '\n'

theorem lines_cons (s : Segment) (ss : List Segment) :
    lines (s :: ss) = s.newlines + lines ss := by
  rw [lines, List.flatMap_cons, List.count_append]
  rfl

theorem lines_segments (cs : List Char) : lines (segments cs) = cs.count '\n' := by
  rw [lines, flatMap_chars_segments]

end Segment

namespace Scan

def below (k : Nat) (scan : Scan) : Scan :=
  ⟨scan.tokens.map (Token.below k), scan.errors.map (LexError.below k)⟩

theorem add_below (scan : Scan) (r : Reading) (k : Nat) :
    (scan.below k).add (r.below k) = (scan.add r).below k := by
  cases r with
  | nothing => rfl
  | token t => rfl
  | error e => rfl

theorem ofChars_cons (line : Nat) (c : Char) (cs : List Char) :
    ofChars line (c :: cs) =
      (ofChars (line + (Segment.next c cs).1.newlines) (Segment.next c cs).2).add
        ((Segment.next c cs).1.reading (line + (Segment.next c cs).1.newlines)) := by
  rw [ofChars, segments_cons]
  rfl

theorem ofSegments_add (ss : List Segment) (line k : Nat) :
    ofSegments (line + k) ss = (ofSegments line ss).below k := by
  induction ss generalizing line with
  | nil => rfl
  | cons s ss ih =>
    rw [ofSegments, ofSegments, Nat.add_right_comm, ih, Segment.reading_add, add_below]

def body (scan : Scan) : List Token := scan.tokens.dropLast

theorem body_add (line : Nat) (ss : List Segment) (r : Reading) :
    ((ofSegments line ss).add r).body = r.token?.toList ++ (ofSegments line ss).body := by
  rw [body, tokens_add, List.dropLast_append_of_ne_nil (tokens_ne_nil line ss), body]

theorem tokens_eq_body (line : Nat) (ss : List Segment) :
    (ofSegments line ss).tokens =
      (ofSegments line ss).body ++ [.eof (line + Segment.lines ss)] := by
  induction ss generalizing line with
  | nil => rfl
  | cons s ss ih =>
    rw [ofSegments, body_add, tokens_add, ih, List.append_assoc, Segment.lines_cons, Nat.add_assoc]

theorem ofText_tokens (text : String) :
    (ofText text).tokens = (ofText text).body ++ [.eof (1 + text.toList.count '\n')] := by
  rw [ofText, ofChars, tokens_eq_body, Segment.lines_segments]

theorem ofSegments_append (line : Nat) (ss us : List Segment) :
    ofSegments line (ss ++ us) =
      ⟨(ofSegments line ss).body ++ (ofSegments (line + Segment.lines ss) us).tokens,
        (ofSegments line ss).errors ++ (ofSegments (line + Segment.lines ss) us).errors⟩ := by
  induction ss generalizing line with
  | nil => rfl
  | cons s ss ih =>
    rw [List.cons_append, ofSegments, ofSegments, ih, body_add, Segment.lines_cons, Nat.add_assoc]
    cases s.reading (line + s.newlines) with
    | nothing => rfl
    | token t => rfl
    | error e => rfl

end Scan

/-- The end of the text, or a text that begins with a blank. -/
def Separated (rest : List Char) : Prop := ∀ c ∈ rest.head?, isBlank c = true

theorem separated_nil : Separated [] := by
  intro c hc
  cases hc

theorem separated_cons {c : Char} (h : isBlank c = true) (cs : List Char) :
    Separated (c :: cs) := by
  intro d hd
  cases hd
  exact h

theorem isBlank_stops {c : Char} (h : isBlank c = true) :
    c.isDigit = false ∧ isWordPart c = false ∧ c ≠ '.' ∧ c ≠ '=' ∧ c ≠ '/' := by
  have hc := isBlank_iff.1 h
  simp only [List.mem_cons, List.not_mem_nil, or_false] at hc
  rcases hc with rfl | rfl | rfl | rfl <;> decide

theorem Separated.head?_ne {rest : List Char} {c : Char} (h : Separated rest)
    (hc : isBlank c = false) : rest.head? ≠ some c := by
  intro hhead
  rw [h c hhead] at hc
  cases hc

theorem Lexeme.next_separated {shape : Shape} {us cs rest : List Char} {c : Char}
    (h : Lexeme shape us) (hus : us = c :: cs) (hs : shape ≠ .comment) (hr : Separated rest) :
    Segment.next c (cs ++ rest) = (⟨shape, us⟩, rest) := by
  have hdigit : ∀ d ∈ rest.head?, d.isDigit = false := fun d hd => (isBlank_stops (hr d hd)).1
  cases h with
  | symbol s =>
    rcases s.text_cases with ⟨d, hd, ht⟩ | ⟨d, t, hd, ht, he⟩
    · rw [hd] at hus ⊢
      obtain ⟨rfl, rfl⟩ := List.cons.inj hus
      rw [List.nil_append, Segment.next_symbol ht fun _ => hr.head?_ne (by decide)]
      exact Segment.symbol_alone d (hr.head?_ne (by decide))
    · rw [hd] at hus ⊢
      obtain ⟨rfl, rfl⟩ := List.cons.inj hus
      rw [List.singleton_append, Segment.next_symbol ht (by simp)]
      exact Segment.symbol_equal d rest he
  | whole hd =>
    have hstop : ∀ d ∈ rest.head?, d.isDigit = false ∧ d ≠ '.' := fun d hd =>
      ⟨hdigit d hd, (isBlank_stops (hr d hd)).2.2.1⟩
    have hc := hd.2 c (by rw [hus]; exact List.mem_cons_self)
    rw [Segment.next_digit _ hc, ← List.cons_append, ← hus]
    exact Segment.number_whole hd hstop
  | @fraction ds fs hd hf =>
    have hc := hd.head_isDigit ⟨'.' :: fs, hus⟩
    rw [Segment.next_digit _ hc, ← List.cons_append, ← hus, List.append_assoc, List.cons_append,
      Segment.number_fraction hd hf]
    have htake : ([] ++ rest).takeWhile Char.isDigit = [] := takeWhile_run (by simp) hdigit
    have hdrop : ([] ++ rest).dropWhile Char.isDigit = rest := dropWhile_run (by simp) hdigit
    rw [List.nil_append] at htake hdrop
    rw [htake, hdrop, List.append_nil]
  | @word d ds hd hds =>
    obtain ⟨rfl, rfl⟩ := List.cons.inj hus
    have hpart : ∀ x ∈ ds, isWordPart x = true := fun x hx => isWordPart_iff.2 (hds x hx)
    have hstop : ∀ x ∈ rest.head?, isWordPart x = false := fun x hx => (isBlank_stops (hr x hx)).2.1
    rw [Segment.next_word _ (isWordStart_iff.2 hd), takeWhile_run hpart hstop,
      dropWhile_run hpart hstop]
  | @string body hb =>
    obtain ⟨rfl, rfl⟩ := List.cons.inj hus
    rw [Segment.next_quote, List.append_assoc, List.singleton_append]
    exact Segment.quoted_body hb rest
  | comment _ => exact absurd rfl hs
  | blank hc =>
    obtain ⟨rfl, rfl⟩ := List.cons.inj hus
    exact Segment.next_blank _ (isBlank_iff.2 hc)

theorem Lexeme.segments_append {shape : Shape} {us rest : List Char} (h : Lexeme shape us)
    (hs : shape ≠ .comment) (hr : Separated rest) :
    segments (us ++ rest) = ⟨shape, us⟩ :: segments rest := by
  obtain ⟨c, cs, hus⟩ := List.exists_cons_of_ne_nil h.ne_nil
  have hnext := h.next_separated hus hs hr
  rw [hus] at hnext ⊢
  rw [List.cons_append, segments_cons, hnext]

namespace Token

def unplaced (t : Token) : Token := { t with line := 0 }

theorem kind_of_unplaced {t u : Token} (h : t.unplaced = u.unplaced) : t.kind = u.kind := by
  have hkind := congrArg Token.kind h
  exact hkind

theorem literal_of_unplaced {t u : Token} (h : t.unplaced = u.unplaced) :
    t.literal = u.literal := by
  have hliteral := congrArg Token.literal h
  exact hliteral

/-- The lexeme by itself is read as the token, wherever it stands. -/
def Spelled (t : Token) : Prop :=
  ∃ shape, shape ≠ .comment ∧ Lexeme shape t.lexeme.toList ∧
    ∀ line, Segment.reading ⟨shape, t.lexeme.toList⟩ line = .token { t with line := line }

def spaced (ts : List Token) : String := " ".intercalate (ts.map lexeme)

theorem spaced_nil : (spaced []).toList = [] := by simp [spaced]

theorem spaced_singleton (t : Token) : (spaced [t]).toList = t.lexeme.toList := by simp [spaced]

theorem spaced_cons_cons (t u : Token) (ts : List Token) :
    (spaced (t :: u :: ts)).toList = t.lexeme.toList ++ ' ' :: (spaced (u :: ts)).toList := by
  simp only [spaced, List.map_cons, String.intercalate_cons_cons, String.toList_append,
    List.append_assoc]
  rfl

end Token

end LoxExpr
