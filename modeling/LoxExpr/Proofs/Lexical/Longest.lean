import LoxExpr.Proofs.Lexical.Lexeme
set_option autoImplicit false

namespace LoxExpr

theorem Symbol.text_cases (s : Symbol) :
    (∃ c, s.text.toList = [c] ∧ ofChar? c = some s) ∨
      ∃ c t, s.text.toList = [c, '='] ∧ ofChar? c = some t ∧ t.withEqual? = some s := by
  cases s with
  | bangEqual => exact .inr ⟨'!', bang, by decide, rfl, rfl⟩
  | equalEqual => exact .inr ⟨'=', equal, by decide, rfl, rfl⟩
  | greaterEqual => exact .inr ⟨'>', greater, by decide, rfl, rfl⟩
  | lessEqual => exact .inr ⟨'<', less, by decide, rfl, rfl⟩
  | _ => exact .inl ⟨_, rfl, rfl⟩

namespace Segment

theorem next_slash {cs : List Char} (h : cs.head? ≠ some '/') :
    next '/' cs = symbol .slash '/' cs := by
  cases cs with
  | nil => rfl
  | cons d ds =>
    have hd : d ≠ '/' := by simpa using h
    simp [next, isBlank, isWordStart, Symbol.ofChar?, hd]

theorem next_symbol {c : Char} {s : Symbol} {cs : List Char} (h : Symbol.ofChar? c = some s)
    (hc : c = '/' → cs.head? ≠ some '/') : next c cs = symbol s c cs := by
  by_cases hslash : c = '/'
  · subst hslash
    obtain rfl : Symbol.slash = s := by simpa [Symbol.ofChar?] using h
    exact next_slash (hc rfl)
  · unfold Symbol.ofChar? at h
    split at h <;> cases h
    all_goals first
      | rfl
      | exact absurd rfl hslash

theorem symbol_equal {s t : Symbol} (c : Char) (cs : List Char) (h : s.withEqual? = some t) :
    symbol s c ('=' :: cs) = (⟨.symbol t, [c, '=']⟩, cs) := by simp [symbol, h]

theorem symbol_alone {s : Symbol} (c : Char) {cs : List Char} (h : cs.head? ≠ some '=') :
    symbol s c cs = (⟨.symbol s, [c]⟩, cs) := by
  unfold symbol
  split
  · next rest _ => exact absurd rfl h
  · rfl

/-- The segment is a lexeme at least as long as another, and of its shape if it is not longer. -/
def Covers (s : Segment) (shape : Shape) (us : List Char) : Prop :=
  s.shape.isLexical = true ∧ us.length ≤ s.chars.length ∧
    (us.length = s.chars.length → s.shape = shape)

theorem covers_of_shape {s : Segment} {shape : Shape} {us : List Char} (h : s.shape = shape)
    (hs : shape.isLexical = true) (hl : us.length ≤ s.chars.length) : s.Covers shape us :=
  ⟨h ▸ hs, hl, fun _ => h⟩

theorem covers_symbol (s : Symbol) (c : Char) (cs : List Char) :
    (symbol s c cs).1.Covers (.symbol s) [c] := by
  unfold symbol
  split
  · exact ⟨rfl, by simp, by simp⟩
  · exact ⟨rfl, by simp, by simp⟩

theorem next_covers_char {c : Char} {s : Symbol} (cs : List Char)
    (h : Symbol.ofChar? c = some s) : (next c cs).1.Covers (.symbol s) [c] := by
  by_cases hc : c = '/' ∧ cs.head? = some '/'
  · obtain ⟨rfl, hcs⟩ := hc
    obtain ⟨rest, rfl⟩ := List.head?_eq_some_iff.1 hcs
    rw [next_comment, comment]
    exact ⟨rfl, by simp, by simp⟩
  · rw [next_symbol h fun hc' hcs => hc ⟨hc', hcs⟩]
    exact covers_symbol s c cs

end Segment

theorem Lexeme.next_covers {shape : Shape} {us : List Char} {c : Char} {cs : List Char}
    (h : Lexeme shape us) (hu : us <+: c :: cs) : (Segment.next c cs).1.Covers shape us := by
  cases h with
  | symbol s =>
    rcases s.text_cases with ⟨d, hd, hs⟩ | ⟨d, t, hd, ht, hs⟩
    · rw [hd] at hu ⊢
      obtain ⟨rfl, -⟩ := List.cons_prefix_cons.1 hu
      exact Segment.next_covers_char cs hs
    · rw [hd] at hu ⊢
      obtain ⟨rfl, rest, rfl⟩ := List.cons_prefix_cons.1 hu
      rw [List.singleton_append, Segment.next_symbol ht (by simp), Segment.symbol_equal d rest hs]
      exact ⟨rfl, by simp, fun _ => rfl⟩
  | whole hd =>
    rw [Segment.next_digit cs (hd.head_isDigit hu)]
    refine Segment.covers_of_shape (Segment.number_shape _) rfl ?_
    exact Nat.le_trans (length_le_takeWhile hd.2 hu) (Segment.takeWhile_le_number _)
  | @fraction ds fs hd hf =>
    have hds : ds <+: c :: cs := (List.prefix_append ds _).trans hu
    obtain ⟨rest, hrest⟩ := hu
    rw [List.append_assoc, List.cons_append] at hrest
    rw [Segment.next_digit cs (hd.head_isDigit hds), ← hrest, Segment.number_fraction hd hf]
    exact Segment.covers_of_shape rfl rfl (by simp)
  | @word d ds hd hds =>
    obtain ⟨rfl, hcs⟩ := List.cons_prefix_cons.1 hu
    rw [Segment.next_word cs (isWordStart_iff.2 hd)]
    refine Segment.covers_of_shape rfl rfl (Nat.succ_le_succ ?_)
    exact length_le_takeWhile (fun x hx => isWordPart_iff.2 (hds x hx)) hcs
  | @string body hb =>
    obtain ⟨rfl, rest, rfl⟩ := List.cons_prefix_cons.1 hu
    rw [Segment.next_quote, List.append_assoc, List.singleton_append, Segment.quoted_body hb]
    exact Segment.covers_of_shape rfl rfl (Nat.le_refl _)
  | @comment body hb =>
    obtain ⟨rfl, hcs⟩ := List.cons_prefix_cons.1 hu
    obtain ⟨rest, rfl⟩ := hcs
    rw [List.cons_append, Segment.next_comment]
    refine Segment.covers_of_shape rfl rfl ?_
    have hbody := length_le_takeWhile (bne_of_notMem hb) (List.prefix_append body rest)
    exact Nat.add_le_add_right hbody 2
  | blank hc =>
    obtain ⟨rfl, -⟩ := List.cons_prefix_cons.1 hu
    rw [Segment.next_blank cs (isBlank_iff.2 hc)]
    exact Segment.covers_of_shape rfl rfl (Nat.le_refl _)

theorem Symbol.text_ofChar? {c : Char} {s : Symbol} (h : ofChar? c = some s) :
    s.text.toList = [c] := by
  unfold ofChar? at h
  split at h <;> cases h <;> rfl

theorem digits_takeWhile {c : Char} (cs : List Char) (h : c.isDigit = true) :
    Digits ((c :: cs).takeWhile Char.isDigit) :=
  ⟨by simp [h], List.all_eq_true.1 List.all_takeWhile⟩

namespace Segment

theorem lexeme_number {c : Char} (cs : List Char) (h : c.isDigit = true) :
    Lexeme (number (c :: cs)).1.shape (number (c :: cs)).1.chars := by
  have hwhole := digits_takeWhile cs h
  unfold number
  split
  · next d rest _ =>
    split
    · next hd =>
      have hrun := digits_takeWhile rest hd
      rw [List.takeWhile_cons_of_pos hd] at hrun
      exact .fraction hwhole hrun
    · exact .whole hwhole
  · exact .whole hwhole

theorem lexeme_symbol {c : Char} {s : Symbol} (cs : List Char) (h : Symbol.ofChar? c = some s) :
    Lexeme (symbol s c cs).1.shape (symbol s c cs).1.chars := by
  have htext := Symbol.text_ofChar? h
  unfold symbol
  split
  · next t _ ht =>
    have hlexeme := Lexeme.symbol t
    rw [Symbol.text_withEqual ht, String.toList_append, htext] at hlexeme
    exact hlexeme
  · exact htext ▸ Lexeme.symbol s

theorem quoted_cases (cs : List Char) :
    Lexeme (quoted cs).1.shape (quoted cs).1.chars ∨ quoted cs = (⟨.unclosed, '"' :: cs⟩, []) := by
  have hbody : '"' ∉ cs.takeWhile (· != '"') := by
    intro h
    have hquote := List.all_eq_true.1 (List.all_takeWhile (p := (· != '"'))) _ h
    simp at hquote
  have hcut := List.takeWhile_append_dropWhile (p := (· != '"')) (l := cs)
  have hhead := List.head?_dropWhile_not (· != '"') cs
  unfold quoted
  split
  · next h =>
    rw [h, List.append_nil] at hcut
    exact .inr (by rw [hcut])
  · next quote rest h =>
    rw [h] at hhead
    obtain rfl : quote = '"' := by simpa using hhead
    exact .inl (.string hbody)

/-- What is cut off a text is a lexeme, or everything from a quote on, or one character. -/
theorem next_cases (c : Char) (cs : List Char) :
    Lexeme (next c cs).1.shape (next c cs).1.chars ∨
      (c = '"' ∧ next c cs = (⟨.unclosed, '"' :: cs⟩, [])) ∨
      (c ≠ '"' ∧ next c cs = (⟨.stray, [c]⟩, cs)) := by
  unfold next
  split
  · next hc => exact .inl (.blank (isBlank_iff.1 hc))
  split
  · next hc => exact .inl (lexeme_number cs hc)
  split
  · next hc =>
    refine .inl (.word (isWordStart_iff.1 hc) fun d hd => isWordPart_iff.1 ?_)
    exact List.all_eq_true.1 List.all_takeWhile d hd
  split
  · exact (quoted_cases cs).imp_right fun h => .inl ⟨rfl, h⟩
  · next rest _ =>
    refine .inl (.comment fun h => ?_)
    have hline := List.all_eq_true.1 (List.all_takeWhile (p := (· != '\n'))) _ h
    simp at hline
  · next hquote _ =>
    split
    · next s hs => exact .inl (lexeme_symbol cs hs)
    · exact .inr (.inr ⟨fun h => hquote h, rfl⟩)

end Segment

theorem Segment.next_prefix (c : Char) (cs : List Char) : (next c cs).1.chars <+: c :: cs :=
  ⟨(next c cs).2, next_append c cs⟩

theorem not_prefix_of_next {c : Char} {cs : List Char}
    (h : (Segment.next c cs).1.shape.isLexical = false) (shape : Shape) (us : List Char)
    (hl : Lexeme shape us) : ¬ us <+: c :: cs := by
  intro hu
  have hcovers := (hl.next_covers hu).1
  rw [h] at hcovers
  cases hcovers

theorem first_next (c : Char) (cs : List Char) :
    First (c :: cs) (Segment.next c cs).1 (Segment.next c cs).2 := by
  rcases Segment.next_cases c cs with h | ⟨rfl, h⟩ | ⟨hc, h⟩
  · have hcut := Segment.next_append c cs
    have hlongest : ∀ shape us, Lexeme shape us →
        us <+: (Segment.next c cs).1.chars ++ (Segment.next c cs).2 →
        us.length ≤ (Segment.next c cs).1.chars.length := by
      intro shape us hl hu
      rw [hcut] at hu
      exact (hl.next_covers hu).2.1
    have hfirst := First.lexeme h hlongest
    rw [hcut] at hfirst
    exact hfirst
  · have hnone := not_prefix_of_next (c := '"') (by rw [h]; rfl)
    rw [h]
    exact .unclosed hnone
  · have hnone := not_prefix_of_next (c := c) (by rw [h]; rfl)
    rw [h]
    exact .stray hc hnone

theorem next_eq_of_longest {s : Segment} {c : Char} {cs rest : List Char}
    (hl : Lexeme s.shape s.chars) (htext : s.chars ++ rest = c :: cs)
    (hlongest : ∀ shape us, Lexeme shape us → us <+: s.chars ++ rest →
      us.length ≤ s.chars.length) : Segment.next c cs = (s, rest) := by
  obtain ⟨hlexical, hle, hshape⟩ := hl.next_covers ⟨rest, htext⟩
  rcases Segment.next_cases c cs with h | ⟨-, h⟩ | ⟨-, h⟩
  · have hge := hlongest _ _ h (htext ▸ Segment.next_prefix c cs)
    have hlen := Nat.le_antisymm hle hge
    obtain ⟨hchars, hrest⟩ := List.append_inj (htext.trans (Segment.next_append c cs).symm) hlen
    calc Segment.next c cs
      _ = (⟨(Segment.next c cs).1.shape, (Segment.next c cs).1.chars⟩, (Segment.next c cs).2) := rfl
      _ = (s, rest) := by rw [hshape hlen, ← hchars, ← hrest]
  · rw [h] at hlexical; cases hlexical
  · rw [h] at hlexical; cases hlexical

/-- The lexical grammar leaves no choice of the first segment. -/
theorem First.eq_next {text rest : List Char} {s : Segment} (h : First text s rest) :
    ∃ c cs, text = c :: cs ∧ Segment.next c cs = (s, rest) := by
  cases h with
  | lexeme hl hlongest =>
    obtain ⟨c, us, hus⟩ := List.exists_cons_of_ne_nil hl.ne_nil
    have htext : s.chars ++ rest = c :: (us ++ rest) := by rw [hus, List.cons_append]
    exact ⟨c, us ++ rest, htext, next_eq_of_longest hl htext hlongest⟩
  | @unclosed cs hnone =>
    refine ⟨'"', cs, rfl, ?_⟩
    rcases Segment.next_cases '"' cs with h | ⟨-, h⟩ | ⟨hne, -⟩
    · exact absurd (Segment.next_prefix '"' cs) (hnone _ _ h)
    · exact h
    · exact absurd rfl hne
  | @stray c cs hc hnone =>
    refine ⟨c, rest, rfl, ?_⟩
    rcases Segment.next_cases c rest with h | ⟨rfl, -⟩ | ⟨-, h⟩
    · exact absurd (Segment.next_prefix c rest) (hnone _ _ h)
    · exact absurd rfl hc
    · exact h

theorem First.ne_nil {text rest : List Char} {s : Segment} (h : First text s rest) :
    s.chars ≠ [] := by
  obtain ⟨c, cs, -, hnext⟩ := h.eq_next
  have hne := Segment.next_chars_ne_nil c cs
  rwa [hnext] at hne

theorem cut_segments (text : List Char) : Cut text (segments text) := by
  induction text using segments.induct with
  | case1 => rw [segments_nil]; exact .nil
  | case2 c cs cut ih => rw [segments_cons]; exact .cons (first_next c cs) ih

theorem Cut.eq_segments {text : List Char} {ss : List Segment} (h : Cut text ss) :
    ss = segments text := by
  induction h with
  | nil => rw [segments_nil]
  | cons hfirst _ ih =>
    obtain ⟨c, cs, rfl, hnext⟩ := hfirst.eq_next
    rw [segments_cons, hnext, ih]

theorem First.append {text rest : List Char} {s : Segment} (h : First text s rest) :
    s.chars ++ rest = text := by
  cases h with
  | lexeme _ _ => rfl
  | unclosed _ => exact List.append_nil _
  | stray _ _ => rfl

theorem Cut.flatMap_chars {text : List Char} {ss : List Segment} (h : Cut text ss) :
    ss.flatMap Segment.chars = text := by
  induction h with
  | nil => rfl
  | cons hfirst _ ih => rw [List.flatMap_cons, ih, hfirst.append]

theorem Cut.first_of_mem {text : List Char} {ss : List Segment} (h : Cut text ss) :
    ∀ s ∈ ss, ∃ us rest, First us s rest := by
  induction h with
  | nil => intro s hs; cases hs
  | cons hfirst _ ih =>
    intro s hs
    rcases List.mem_cons.1 hs with rfl | hs
    · exact ⟨_, _, hfirst⟩
    · exact ih s hs

theorem Cut.chars_ne_nil {text : List Char} {ss : List Segment} (h : Cut text ss) :
    ∀ s ∈ ss, s.chars ≠ [] := by
  intro s hs
  obtain ⟨us, rest, hfirst⟩ := h.first_of_mem s hs
  exact hfirst.ne_nil

end LoxExpr
