import LoxExpr.Diagnostic
set_option autoImplicit false

/-!
A text is cut into segments, each as long as its shape allows, and each segment is read by itself as
a token, a lexical error or nothing; all it has to know of the text before it is the line.
-/

namespace LoxExpr

inductive Shape where
  | blank
  | comment
  | symbol (s : Symbol)
  | number
  | word
  | string
  | unclosed
  | stray
  deriving DecidableEq, Repr

structure Segment where
  shape : Shape
  chars : List Char
  deriving DecidableEq, Repr

/-! The classes of characters are those of ASCII; a character outside it belongs to none. -/

def isBlank (c : Char) : Bool := c == ' ' || c == '\t' || c == '\r' || c == '\n'

def isWordStart (c : Char) : Bool := c.isAlpha || c == '_'

def isWordPart (c : Char) : Bool := c.isAlphanum || c == '_'

namespace Segment

def number (cs : List Char) : Segment × List Char :=
  let whole := cs.takeWhile Char.isDigit
  match cs.dropWhile Char.isDigit with
  | '.' :: d :: rest =>
      if d.isDigit then
        (⟨.number, whole ++ '.' :: d :: rest.takeWhile Char.isDigit⟩, rest.dropWhile Char.isDigit)
      else (⟨.number, whole⟩, '.' :: d :: rest)
  | rest => (⟨.number, whole⟩, rest)

/-- The text up to the next quote and the quote itself, after an opening quote; without a further
quote the segment takes all. -/
def quoted (cs : List Char) : Segment × List Char :=
  let body := cs.takeWhile (· != '"')
  match cs.dropWhile (· != '"') with
  | [] => (⟨.unclosed, '"' :: body⟩, [])
  | quote :: rest => (⟨.string, '"' :: body ++ [quote]⟩, rest)

def symbol (s : Symbol) (c : Char) (cs : List Char) : Segment × List Char :=
  match s.withEqual?, cs with
  | some t, '=' :: rest => (⟨.symbol t, [c, '=']⟩, rest)
  | _, _ => (⟨.symbol s, [c]⟩, cs)

def comment (cs : List Char) : Segment × List Char :=
  (⟨.comment, '/' :: '/' :: cs.takeWhile (· != '\n')⟩, cs.dropWhile (· != '\n'))

def next (c : Char) (cs : List Char) : Segment × List Char :=
  if isBlank c then (⟨.blank, [c]⟩, cs)
  else if c.isDigit then number (c :: cs)
  else if isWordStart c then
    (⟨.word, c :: cs.takeWhile isWordPart⟩, cs.dropWhile isWordPart)
  else match c, cs with
    | '"', _ => quoted cs
    | '/', '/' :: rest => comment rest
    | _, _ => match Symbol.ofChar? c with
      | some s => symbol s c cs
      | none => (⟨.stray, [c]⟩, cs)

theorem number_append (cs : List Char) : (number cs).1.chars ++ (number cs).2 = cs := by
  have cut := List.takeWhile_append_dropWhile (p := Char.isDigit) (l := cs)
  unfold number
  split
  · next d rest h =>
    rw [h] at cut
    split <;> simp [cut]
  · next rest _ => exact cut

theorem quoted_append (cs : List Char) : (quoted cs).1.chars ++ (quoted cs).2 = '"' :: cs := by
  have cut := List.takeWhile_append_dropWhile (p := (· != '"')) (l := cs)
  unfold quoted
  split
  · next h => rw [h] at cut; simpa using cut
  · next quote rest h => rw [h] at cut; simp [cut]

theorem symbol_append (s : Symbol) (c : Char) (cs : List Char) :
    (symbol s c cs).1.chars ++ (symbol s c cs).2 = c :: cs := by
  unfold symbol; split <;> rfl

theorem next_append (c : Char) (cs : List Char) :
    (next c cs).1.chars ++ (next c cs).2 = c :: cs := by
  unfold next
  split
  · rfl
  split
  · exact number_append (c :: cs)
  split
  · simp
  split
  · exact quoted_append cs
  · simp [comment]
  · split
    · exact symbol_append _ c cs
    · rfl

theorem number_chars_ne_nil {c : Char} (cs : List Char) (digit : c.isDigit = true) :
    (number (c :: cs)).1.chars ≠ [] := by
  have start : (c :: cs).takeWhile Char.isDigit ≠ [] := by simp [digit]
  unfold number
  split
  · split
    · simp
    · exact start
  · exact start

theorem next_chars_ne_nil (c : Char) (cs : List Char) : (next c cs).1.chars ≠ [] := by
  unfold next
  split
  · simp
  split
  · next digit => exact number_chars_ne_nil cs digit
  split
  · simp
  split
  · unfold quoted; split <;> simp
  · simp [comment]
  · split
    · unfold symbol; split <;> simp
    · simp

theorem next_rest_length (c : Char) (cs : List Char) : (next c cs).2.length < cs.length + 1 := by
  have total := congrArg List.length (next_append c cs)
  have some_char := List.length_pos_iff.2 (next_chars_ne_nil c cs)
  simp only [List.length_append, List.length_cons] at total
  omega

end Segment

def segments : List Char → List Segment
  | [] => []
  | c :: cs =>
    let cut := Segment.next c cs
    cut.1 :: segments cut.2
termination_by cs => cs.length
decreasing_by exact Segment.next_rest_length c cs

theorem segments_nil : segments [] = [] := by rw [segments]

theorem segments_cons (c : Char) (cs : List Char) :
    segments (c :: cs) = (Segment.next c cs).1 :: segments (Segment.next c cs).2 := by
  rw [segments]

theorem flatMap_chars_segments (cs : List Char) : (segments cs).flatMap Segment.chars = cs := by
  induction cs using segments.induct with
  | case1 => simp [segments_nil]
  | case2 c cs cut ih =>
    rw [segments_cons, List.flatMap_cons, ih]
    exact Segment.next_append c cs

inductive Reading where
  | nothing
  | token (t : Token)
  | error (e : LexError)
  deriving DecidableEq, Repr

namespace Segment

def newlines (s : Segment) : Nat := s.chars.count '\n'

def lexeme (s : Segment) : String := String.ofList s.chars

/-- Reads a segment whose last character stands on the given line. -/
def reading (s : Segment) (line : Nat) : Reading :=
  match s.shape with
  | .blank | .comment => .nothing
  | .symbol y => .token ⟨.symbol y, s.lexeme, none, line⟩
  | .number => match Numeral.read? s.chars with
    | some x => .token ⟨.number, s.lexeme, some (.number x.toBinary64), line⟩
    | none => .error ⟨.invalidNumber s.lexeme, line⟩
  | .word =>
    let kind := match Keyword.ofText? s.lexeme with
      | some k => .keyword k
      | none => .identifier
    .token ⟨kind, s.lexeme, none, line⟩
  | .string => .token ⟨.string, s.lexeme, some (.str (String.ofList s.chars.tail.dropLast)), line⟩
  | .unclosed => .error ⟨.unterminatedString, line⟩
  | .stray => .error ⟨.unexpectedCharacter, line⟩

end Segment

structure Scan where
  tokens : List Token
  errors : List LexError
  deriving DecidableEq, Repr

namespace Scan

def add (scan : Scan) : Reading → Scan
  | .nothing => scan
  | .token t => ⟨t :: scan.tokens, scan.errors⟩
  | .error e => ⟨scan.tokens, e :: scan.errors⟩

def ofSegments (line : Nat) : List Segment → Scan
  | [] => ⟨[.eof line], []⟩
  | s :: rest =>
    let last := line + s.newlines
    (ofSegments last rest).add (s.reading last)

def ofChars (line : Nat) (cs : List Char) : Scan := ofSegments line (segments cs)

def ofText (text : String) : Scan := ofChars 1 text.toList

theorem tokens_add_length (scan : Scan) (r : Reading) :
    scan.tokens.length ≤ (scan.add r).tokens.length := by
  cases r <;> simp [add]

theorem tokens_ne_nil (line : Nat) (ss : List Segment) : (ofSegments line ss).tokens ≠ [] := by
  induction ss generalizing line with
  | nil => simp [ofSegments]
  | cons s rest ih =>
    have last_token := List.length_pos_iff.2 (ih (line + s.newlines))
    exact List.length_pos_iff.1 (Nat.lt_of_lt_of_le last_token (tokens_add_length _ _))

end Scan

end LoxExpr
