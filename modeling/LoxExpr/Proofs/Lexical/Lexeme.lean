import LoxExpr.Scan
set_option autoImplicit false

/-!
The lexical grammar, independent of any way of cutting: which texts are lexemes, and of which
shape. What is cut off a text is its longest lexeme, and where no lexeme begins either one
character or, from a quote on, everything.
-/

namespace LoxExpr

def Digits (ds : List Char) : Prop := ds ≠ [] ∧ ∀ d ∈ ds, d.isDigit = true

inductive Lexeme : Shape → List Char → Prop where
  | symbol (s : Symbol) : Lexeme (.symbol s) s.text.toList
  | whole {ds : List Char} : Digits ds → Lexeme .number ds
  | fraction {ds fs : List Char} : Digits ds → Digits fs → Lexeme .number (ds ++ '.' :: fs)
  | word {c : Char} {cs : List Char} :
      c.isAlpha = true ∨ c = '_' → (∀ d ∈ cs, d.isAlphanum = true ∨ d = '_') →
      Lexeme .word (c :: cs)
  | string {body : List Char} : '"' ∉ body → Lexeme .string ('"' :: (body ++ ['"']))
  | comment {body : List Char} : '\n' ∉ body → Lexeme .comment ('/' :: '/' :: body)
  | blank {c : Char} : c ∈ [' ', '\t', '\r', '\n'] → Lexeme .blank [c]

/-- The segment at the head of a text and the text after it. -/
inductive First : List Char → Segment → List Char → Prop where
  | lexeme {s : Segment} {rest : List Char} :
      Lexeme s.shape s.chars →
      (∀ shape us, Lexeme shape us → us <+: s.chars ++ rest → us.length ≤ s.chars.length) →
      First (s.chars ++ rest) s rest
  | unclosed {cs : List Char} :
      (∀ shape us, Lexeme shape us → ¬ us <+: '"' :: cs) →
      First ('"' :: cs) ⟨.unclosed, '"' :: cs⟩ []
  | stray {c : Char} {cs : List Char} :
      c ≠ '"' → (∀ shape us, Lexeme shape us → ¬ us <+: c :: cs) → First (c :: cs) ⟨.stray, [c]⟩ cs

inductive Cut : List Char → List Segment → Prop where
  | nil : Cut [] []
  | cons {text rest : List Char} {s : Segment} {ss : List Segment} :
      First text s rest → Cut rest ss → Cut text (s :: ss)

def Shape.isLexical : Shape → Bool
  | .unclosed => false
  | .stray => false
  | _ => true

theorem Lexeme.isLexical {shape : Shape} {us : List Char} (h : Lexeme shape us) :
    shape.isLexical = true := by cases h <;> rfl

theorem Lexeme.ne_nil {shape : Shape} {us : List Char} (h : Lexeme shape us) : us ≠ [] := by
  cases h with
  | symbol s => cases s <;> decide
  | whole hd => exact hd.1
  | fraction hd _ => simp
  | _ => simp

theorem isBlank_iff {c : Char} : isBlank c = true ↔ c ∈ [' ', '\t', '\r', '\n'] := by
  simp [isBlank, or_assoc]

theorem isWordStart_iff {c : Char} : isWordStart c = true ↔ c.isAlpha = true ∨ c = '_' := by
  simp [isWordStart]

theorem isWordPart_iff {c : Char} : isWordPart c = true ↔ c.isAlphanum = true ∨ c = '_' := by
  simp [isWordPart]

theorem isBlank_eq_false {c : Char} (h : c.isDigit = true ∨ isWordStart c = true) :
    isBlank c = false := by
  cases hb : isBlank c with
  | false => rfl
  | true =>
    have hc := isBlank_iff.1 hb
    simp only [List.mem_cons, List.not_mem_nil, or_false] at hc
    rcases hc with rfl | rfl | rfl | rfl <;> revert h <;> decide

theorem lt_toNat_of_isAlpha {c : Char} (h : c.isAlpha = true) : '9'.toNat < c.toNat := by
  have hcases : c.isUpper = true ∨ c.isLower = true := Bool.or_eq_true_iff.1 h
  rcases hcases with hu | hl
  · have hfirst : 'A'.toNat ≤ c.toNat := (of_decide_eq_true hu).1
    exact Nat.lt_of_lt_of_le (by decide) hfirst
  · have hfirst : 'a'.toNat ≤ c.toNat := of_decide_eq_true (Bool.and_eq_true_iff.1 hl).1
    exact Nat.lt_of_lt_of_le (by decide) hfirst

theorem isDigit_eq_false {c : Char} (h : isWordStart c = true) : c.isDigit = false := by
  cases hd : c.isDigit with
  | false => rfl
  | true =>
    have hlast := (Char.isDigit_iff_toNat.1 hd).2
    rcases isWordStart_iff.1 h with ha | rfl
    · have hletter := lt_toNat_of_isAlpha ha
      omega
    · revert hlast; decide

namespace Segment

/-! The first segment by the character it begins with. -/

theorem next_blank {c : Char} (cs : List Char) (h : isBlank c = true) :
    next c cs = (⟨.blank, [c]⟩, cs) := by simp [next, h]

theorem next_digit {c : Char} (cs : List Char) (h : c.isDigit = true) :
    next c cs = number (c :: cs) := by simp [next, isBlank_eq_false (.inl h), h]

theorem next_word {c : Char} (cs : List Char) (h : isWordStart c = true) :
    next c cs = (⟨.word, c :: cs.takeWhile isWordPart⟩, cs.dropWhile isWordPart) := by
  simp [next, isBlank_eq_false (.inr h), isDigit_eq_false h, h]

theorem next_quote (cs : List Char) : next '"' cs = quoted cs := rfl

theorem next_comment (cs : List Char) : next '/' ('/' :: cs) = comment cs := rfl

end Segment

theorem Digits.head_isDigit {ds cs : List Char} {c : Char} (h : Digits ds) (hp : ds <+: c :: cs) :
    c.isDigit = true := by
  cases ds with
  | nil => exact absurd rfl h.1
  | cons d ds =>
    obtain ⟨rfl, -⟩ := List.cons_prefix_cons.1 hp
    exact h.2 d List.mem_cons_self

theorem Digits.take {ds : List Char} {n : Nat} (h : Digits ds) (hn : 0 < n) :
    Digits (ds.take n) := by
  have hlen := List.length_pos_iff.2 h.1
  refine ⟨List.ne_nil_of_length_pos ?_, fun c hc => h.2 c (List.mem_of_mem_take hc)⟩
  rw [List.length_take]
  omega

theorem Digits.drop {ds : List Char} {n : Nat} (h : Digits ds) (hn : n < ds.length) :
    Digits (ds.drop n) := by
  refine ⟨List.ne_nil_of_length_pos ?_, fun c hc => h.2 c (List.mem_of_mem_drop hc)⟩
  rw [List.length_drop]
  omega

theorem bne_of_notMem {c : Char} {us : List Char} (h : c ∉ us) : ∀ d ∈ us, (d != c) = true := by
  intro d hd
  exact bne_iff_ne.2 fun heq => h (heq ▸ hd)

theorem takeWhile_run {p : Char → Bool} {us rest : List Char} (h : ∀ c ∈ us, p c = true)
    (hr : ∀ c ∈ rest.head?, p c = false) : (us ++ rest).takeWhile p = us := by
  rw [List.takeWhile_append_of_pos h]
  cases rest with
  | nil => simp
  | cons c rest => simp [hr c rfl]

theorem dropWhile_run {p : Char → Bool} {us rest : List Char} (h : ∀ c ∈ us, p c = true)
    (hr : ∀ c ∈ rest.head?, p c = false) : (us ++ rest).dropWhile p = rest := by
  rw [List.dropWhile_append_of_pos h]
  cases rest with
  | nil => rfl
  | cons c rest => simp [hr c rfl]

theorem length_le_takeWhile {p : Char → Bool} {us text : List Char} (h : ∀ c ∈ us, p c = true)
    (hu : us <+: text) : us.length ≤ (text.takeWhile p).length := by
  obtain ⟨rest, rfl⟩ := hu
  rw [List.takeWhile_append_of_pos h, List.length_append]
  omega

namespace Segment

theorem number_shape (cs : List Char) : (number cs).1.shape = .number := by
  unfold number
  split
  · split <;> rfl
  · rfl

theorem takeWhile_le_number (cs : List Char) :
    (cs.takeWhile Char.isDigit).length ≤ (number cs).1.chars.length := by
  unfold number
  split
  · split
    · simp
    · exact Nat.le_refl _
  · exact Nat.le_refl _

theorem number_fraction {ds fs : List Char} (hd : Digits ds) (hf : Digits fs) (rest : List Char) :
    number (ds ++ '.' :: (fs ++ rest)) =
      (⟨.number, ds ++ '.' :: (fs ++ rest.takeWhile Char.isDigit)⟩,
        rest.dropWhile Char.isDigit) := by
  obtain ⟨hne, hfs⟩ := hf
  have hstop : ∀ c ∈ ('.' :: (fs ++ rest)).head?, c.isDigit = false := by
    intro c hc
    cases hc
    decide
  unfold number
  rw [takeWhile_run hd.2 hstop, dropWhile_run hd.2 hstop]
  cases fs with
  | nil => exact absurd rfl hne
  | cons f fs =>
    have hrest : ∀ c ∈ fs, c.isDigit = true := fun c hc => hfs c (List.mem_cons_of_mem f hc)
    simp only [List.cons_append, hfs f List.mem_cons_self, if_true]
    rw [List.takeWhile_append_of_pos hrest, List.dropWhile_append_of_pos hrest]

theorem number_whole {ds rest : List Char} (hd : Digits ds)
    (hr : ∀ c ∈ rest.head?, c.isDigit = false ∧ c ≠ '.') :
    number (ds ++ rest) = (⟨.number, ds⟩, rest) := by
  have hstop : ∀ c ∈ rest.head?, c.isDigit = false := fun c hc => (hr c hc).1
  unfold number
  rw [takeWhile_run hd.2 hstop, dropWhile_run hd.2 hstop]
  cases rest with
  | nil => rfl
  | cons c rest =>
    have hdot := (hr c rfl).2
    split
    · next h => cases h; exact absurd rfl hdot
    · rfl

theorem quoted_body {body : List Char} (h : '"' ∉ body) (rest : List Char) :
    quoted (body ++ '"' :: rest) = (⟨.string, '"' :: (body ++ ['"'])⟩, rest) := by
  have hstop : ∀ c ∈ ('"' :: rest).head?, (c != '"') = false := by simp
  unfold quoted
  rw [takeWhile_run (bne_of_notMem h) hstop, dropWhile_run (bne_of_notMem h) hstop]
  rfl

end Segment

end LoxExpr
