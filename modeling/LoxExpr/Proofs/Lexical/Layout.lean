import LoxExpr.Proofs.Lexical.Composition
set_option autoImplicit false

namespace LoxExpr

/-- Blanks, and comments together with the line breaks after them. -/
inductive Layout : List Char → Prop where
  | nil : Layout []
  | blank {c : Char} {cs : List Char} :
      c ∈ [' ', '\t', '\r', '\n'] → Layout cs → Layout (c :: cs)
  | comment {body cs : List Char} :
      '\n' ∉ body → Layout cs → Layout ('/' :: '/' :: (body ++ '\n' :: cs))

theorem Layout.space : Layout [' '] := .blank (by decide) .nil

def Shape.isToken : Shape → Bool
  | .symbol _ => true
  | .number => true
  | .word => true
  | .string => true
  | _ => false

theorem Shape.ne_comment {shape : Shape} (h : shape.isToken = true) : shape ≠ .comment := by
  rintro rfl
  cases h

theorem Segment.comment_line {body : List Char} (h : '\n' ∉ body) (rest : List Char) :
    comment (body ++ '\n' :: rest) = (⟨.comment, '/' :: '/' :: body⟩, '\n' :: rest) := by
  have hstop : ∀ c ∈ ('\n' :: rest).head?, (c != '\n') = false := by simp
  unfold comment
  rw [takeWhile_run (bne_of_notMem h) hstop, dropWhile_run (bne_of_notMem h) hstop]

theorem Scan.ofChars_blank {c : Char} (h : c ∈ [' ', '\t', '\r', '\n']) (line : Nat)
    (cs : List Char) : ofChars line (c :: cs) = ofChars (line + [c].count '\n') cs := by
  rw [ofChars_cons, Segment.next_blank cs (isBlank_iff.2 h)]
  rfl

theorem Layout.ofChars_append {gap : List Char} (h : Layout gap) (line : Nat)
    (rest : List Char) :
    Scan.ofChars line (gap ++ rest) = Scan.ofChars (line + gap.count '\n') rest := by
  induction h generalizing line with
  | nil => rfl
  | @blank c cs hc _ ih =>
    rw [List.cons_append, Scan.ofChars_blank hc, ih, Nat.add_assoc, ← List.count_append]
    rfl
  | @comment body cs hb _ ih =>
    have hnone : Segment.newlines ⟨.comment, '/' :: '/' :: body⟩ = 0 :=
      List.count_eq_zero.2 (by simpa using hb)
    calc Scan.ofChars line ('/' :: '/' :: (body ++ '\n' :: cs) ++ rest)
      _ = Scan.ofChars line ('\n' :: (cs ++ rest)) := by
        rw [List.cons_append, List.cons_append, List.append_assoc, List.cons_append,
          Scan.ofChars_cons, Segment.next_comment, Segment.comment_line hb, hnone]
        rfl
      _ = Scan.ofChars (line + 1 + cs.count '\n') rest := by
        rw [Scan.ofChars_blank (by decide), ih]
        rfl
      _ = Scan.ofChars (line + ('/' :: '/' :: (body ++ '\n' :: cs)).count '\n') rest := by
        have hbody : body.count '\n' = 0 := List.count_eq_zero.2 hb
        rw [List.count_cons_of_ne (by decide), List.count_cons_of_ne (by decide),
          List.count_append, hbody, List.count_cons_self]
        congr 1
        omega

theorem Lexeme.ofChars_append {shape : Shape} {us rest : List Char} (h : Lexeme shape us)
    (hs : shape ≠ .comment) (hr : Separated rest) (line : Nat) :
    Scan.ofChars line (us ++ rest) = (Scan.ofChars (line + us.count '\n') rest).add
      (Segment.reading ⟨shape, us⟩ (line + us.count '\n')) := by
  rw [Scan.ofChars, h.segments_append hs hr]
  rfl

namespace Segment.Yields

variable {line : Nat} {s : Segment} {d : Option Diagnostic}

theorem isToken_eq_false (h : s.Yields line none d) : s.shape.isToken = false := by
  cases h <;> rfl

theorem line_lexeme {t : Token} (h : s.Yields line (some t) d) :
    t.line = line ∧ t.lexeme.toList = s.chars := by
  cases h <;> exact ⟨rfl, String.toList_ofList⟩

end Segment.Yields

theorem Lexeme.reading_token {shape : Shape} {us : List Char} (h : Lexeme shape us)
    (hs : shape.isToken = true) : ∃ t : Token, t.lexeme.toList = us ∧
      ∀ line, Segment.reading ⟨shape, us⟩ line = .token { t with line := line } := by
  have hyields := h.yields 0
  cases hr : Segment.reading ⟨shape, us⟩ 0 with
  | nothing =>
    rw [hr] at hyields
    exact absurd hs (by rw [hyields.isToken_eq_false]; decide)
  | error e =>
    rw [hr] at hyields
    exact absurd hs (by rw [hyields.isToken_eq_false]; decide)
  | token t =>
    rw [hr] at hyields
    obtain ⟨hline, hlexeme⟩ := hyields.line_lexeme
    refine ⟨t, hlexeme, fun line => ?_⟩
    have hbelow := Segment.reading_add ⟨shape, us⟩ 0 line
    rw [Nat.zero_add, hr, Reading.below, Token.below, hline, Nat.zero_add] at hbelow
    exact hbelow

/-- A lexeme that becomes a token, and the layout after it. -/
structure Piece where
  lexeme : Segment
  gap : List Char
  isLexeme : Lexeme lexeme.shape lexeme.chars
  isToken : lexeme.shape.isToken = true
  isLayout : Layout gap
  separated : Separated gap

namespace Piece

def chars (p : Piece) : List Char := p.lexeme.chars ++ p.gap

def Apart (ps : List Piece) : Prop := ∀ p ∈ ps.dropLast, p.gap ≠ []

theorem Apart.tail {p : Piece} {ps : List Piece} (h : Apart (p :: ps)) : Apart ps := by
  intro q hq
  cases ps with
  | nil => cases hq
  | cons r rs => exact h q (List.mem_cons_of_mem p hq)

theorem Apart.separated {p : Piece} {ps : List Piece} (h : Apart (p :: ps)) :
    Separated (p.gap ++ ps.flatMap chars) := by
  cases ps with
  | nil => rw [List.flatMap_nil, List.append_nil]; exact p.separated
  | cons q qs =>
    obtain ⟨c, cs, hgap⟩ := List.exists_cons_of_ne_nil (h p List.mem_cons_self)
    have hsep := p.separated
    rw [hgap] at hsep ⊢
    exact hsep

theorem yields (p : Piece) (line : Nat) :
    ∃ t, p.lexeme.reading line = .token t ∧ p.lexeme.Yields line (some t) none := by
  obtain ⟨t, -, hreading⟩ := p.isLexeme.reading_token p.isToken
  have hyields := p.isLexeme.yields line
  rw [hreading] at hyields
  exact ⟨_, hreading line, hyields⟩

theorem ofChars_append (p : Piece) {rest : List Char} (hr : Separated (p.gap ++ rest))
    (line : Nat) : Scan.ofChars line (p.chars ++ rest) =
      (Scan.ofChars (line + p.chars.count '\n') rest).add
        (p.lexeme.reading (line + p.lexeme.chars.count '\n')) := by
  rw [chars, List.append_assoc, p.isLexeme.ofChars_append (Shape.ne_comment p.isToken) hr,
    p.isLayout.ofChars_append, List.count_append, Nat.add_assoc]

end Piece

theorem Scan.ofChars_pieces {ps : List Piece} (h : Piece.Apart ps) (line : Nat) :
    ∃ ts, ofChars line (ps.flatMap Piece.chars) =
        ⟨ts ++ [.eof (line + (ps.flatMap Piece.chars).count '\n')], []⟩ ∧
      ts.length = ps.length ∧
      ∀ (i : Nat) (p : Piece) (t : Token), ps[i]? = some p → ts[i]? = some t →
        p.lexeme.Yields
          (line + ((ps.take i).flatMap Piece.chars ++ p.lexeme.chars).count '\n')
          (some t) none := by
  -- The line is free, for the other pieces are scanned from the line on which the first one ends.
  induction ps generalizing line with
  | nil =>
    refine ⟨[], ?_, rfl, by simp⟩
    rw [List.flatMap_nil, ofChars, segments_nil]
    rfl
  | cons p ps ih =>
    obtain ⟨t, hreading, hyields⟩ := p.yields (line + p.lexeme.chars.count '\n')
    obtain ⟨ts, hscan, hlength, hts⟩ := ih h.tail (line + p.chars.count '\n')
    refine ⟨t :: ts, ?_, congrArg Nat.succ hlength, fun i q u hq hu => ?_⟩
    · rw [List.flatMap_cons, p.ofChars_append h.separated, hscan, hreading, List.count_append,
        Nat.add_assoc]
      rfl
    · cases i with
      | zero =>
        cases hq
        cases hu
        exact hyields
      | succ i =>
        have hlater := hts i q u hq hu
        rw [Nat.add_assoc, ← List.count_append, ← List.append_assoc, ← List.flatMap_cons] at hlater
        exact hlater

structure Laid where
  front : List Char
  pieces : List Piece
  isLayout : Layout front
  apart : Piece.Apart pieces

namespace Laid

def before (laid : Laid) (i : Nat) : List Char :=
  laid.front ++ (laid.pieces.take i).flatMap Piece.chars

def text (laid : Laid) : String := String.ofList (laid.front ++ laid.pieces.flatMap Piece.chars)

end Laid

namespace Token

theorem Spelled.ofChars_append {t : Token} (h : t.Spelled) {rest : List Char}
    (hr : Separated rest) (line : Nat) :
    ∃ last, Scan.ofChars line (t.lexeme.toList ++ rest) =
      (Scan.ofChars last rest).add (.token { t with line := last }) := by
  obtain ⟨shape, hshape, hlexeme, hreading⟩ := h
  refine ⟨line + t.lexeme.toList.count '\n', ?_⟩
  rw [hlexeme.ofChars_append hshape hr, hreading]

theorem spaced_cons_append (t : Token) (ts : List Token) {gap : List Char} (hg : Separated gap) :
    ∃ space, Layout space ∧ Separated (space ++ ((spaced ts).toList ++ gap)) ∧
      (spaced (t :: ts)).toList ++ gap =
        t.lexeme.toList ++ (space ++ ((spaced ts).toList ++ gap)) := by
  cases ts with
  | nil =>
    rw [spaced_nil, spaced_singleton]
    exact ⟨[], .nil, hg, rfl⟩
  | cons u ts =>
    refine ⟨[' '], Layout.space, separated_cons rfl _, ?_⟩
    rw [spaced_cons_cons, List.append_assoc]
    rfl

theorem spaced_append_eof (ts : List Token) (line : Nat) :
    ∃ gap, Layout gap ∧ Separated gap ∧
      (spaced (ts ++ [.eof line])).toList = (spaced ts).toList ++ gap := by
  induction ts with
  | nil =>
    refine ⟨[], .nil, separated_nil, ?_⟩
    rw [List.nil_append, spaced_singleton, spaced_nil]
    rfl
  | cons t ts ih =>
    cases ts with
    | nil =>
      -- The lexeme of the end is empty, so all that it adds is the space before it.
      refine ⟨[' '], Layout.space, separated_cons rfl [], ?_⟩
      rw [List.singleton_append, spaced_cons_cons, spaced_singleton, spaced_singleton]
      rfl
    | cons u ts =>
      obtain ⟨gap, hl, hg, htext⟩ := ih
      refine ⟨gap, hl, hg, ?_⟩
      rw [List.cons_append, List.cons_append, spaced_cons_cons, ← List.cons_append, htext,
        spaced_cons_cons, List.append_assoc, List.cons_append]

theorem spaced_of_mem {ts us lexed : List Token} {line : Nat} (h : us = ts ++ [.eof line])
    (hlexed : lexed ∈ [us, us.dropLast]) :
    ∃ gap, Layout gap ∧ Separated gap ∧ (spaced lexed).toList = (spaced ts).toList ++ gap := by
  subst h
  rw [List.dropLast_concat, List.mem_cons, List.mem_singleton] at hlexed
  rcases hlexed with rfl | rfl
  · exact spaced_append_eof ts line
  · exact ⟨[], .nil, separated_nil, (List.append_nil _).symm⟩

end Token

namespace Scan

theorem ofChars_spaced_append {ts : List Token} (h : ∀ t ∈ ts, t.Spelled) {gap : List Char}
    (hl : Layout gap) (hg : Separated gap) (line : Nat) :
    ∃ us last, ofChars line ((Token.spaced ts).toList ++ gap) = ⟨us ++ [.eof last], []⟩ ∧
      us.map Token.unplaced = ts.map Token.unplaced := by
  induction ts generalizing line with
  | nil =>
    refine ⟨[], line + gap.count '\n', ?_, rfl⟩
    have hend := hl.ofChars_append line []
    rw [List.append_nil] at hend
    rw [Token.spaced_nil, List.nil_append, hend, ofChars, segments_nil]
    rfl
  | cons t ts ih =>
    obtain ⟨space, hspace, hsep, htext⟩ := Token.spaced_cons_append t ts hg
    obtain ⟨last, hfirst⟩ := (h t List.mem_cons_self).ofChars_append hsep line
    have hrest : ∀ u ∈ ts, u.Spelled := fun u hu => h u (List.mem_cons_of_mem t hu)
    obtain ⟨us, final, hscan, hus⟩ := ih hrest (last + space.count '\n')
    refine ⟨{ t with line := last } :: us, final, ?_, by rw [List.map_cons, hus]; rfl⟩
    rw [htext, hfirst, hspace.ofChars_append, hscan]
    rfl

theorem ofChars_spaced {ts : List Token} (h : ∀ t ∈ ts, t.Spelled) (line : Nat) :
    ∃ us last, ofChars line (Token.spaced ts).toList = ⟨us ++ [.eof last], []⟩ ∧
      us.map Token.unplaced = ts.map Token.unplaced := by
  have hscan := ofChars_spaced_append h .nil separated_nil line
  rwa [List.append_nil] at hscan

theorem reading_of_mem_body {t : Token} {ss : List Segment} {line : Nat}
    (h : t ∈ (ofSegments line ss).body) : ∃ s ∈ ss, ∃ last, s.reading last = .token t := by
  induction ss generalizing line with
  | nil => cases h
  | cons s ss ih =>
    rw [ofSegments, body_add] at h
    rcases List.mem_append.1 h with hfirst | hrest
    · refine ⟨s, List.mem_cons_self, line + s.newlines, ?_⟩
      cases hr : s.reading (line + s.newlines) with
      | nothing => rw [hr] at hfirst; cases hfirst
      | error e => rw [hr] at hfirst; cases hfirst
      | token u =>
        rw [hr] at hfirst
        rw [List.mem_singleton.1 hfirst]
    · obtain ⟨u, hu, hreading⟩ := ih hrest
      exact ⟨u, List.mem_cons_of_mem s hu, hreading⟩

end Scan

theorem Segment.isToken_of_reading {s : Segment} {line : Nat} {t : Token}
    (h : s.reading line = .token t) : s.shape.isToken = true := by
  obtain ⟨shape, chars⟩ := s
  cases shape <;> first | rfl | cases h

theorem First.lexeme_of_isToken {text rest : List Char} {s : Segment} (h : First text s rest)
    (hs : s.shape.isToken = true) : Lexeme s.shape s.chars := by
  cases h with
  | lexeme hl _ => exact hl
  | unclosed _ => cases hs
  | stray _ _ => cases hs

theorem Scan.spelled_of_mem_body {t : Token} {text : List Char} {line : Nat}
    (h : t ∈ (ofChars line text).body) : t.Spelled := by
  obtain ⟨s, hs, last, hlast⟩ := reading_of_mem_body h
  have htoken := Segment.isToken_of_reading hlast
  obtain ⟨us, rest, hfirst⟩ := (cut_segments text).first_of_mem s hs
  have hlexeme := hfirst.lexeme_of_isToken htoken
  obtain ⟨u, hu, hreading⟩ := hlexeme.reading_token htoken
  obtain rfl : { u with line := last } = t := Reading.token.inj ((hreading last).symm.trans hlast)
  exact ⟨s.shape, Shape.ne_comment htoken, hu ▸ hlexeme, hu ▸ hreading⟩

/-- Lexemes laid out are scanned as one token each, on the line of its end and with nothing to
report. So the lexemes of any scan, with spaces between them, are scanned as they were but for their
lines, with or without the empty one of the end of the text. -/
theorem scan_layout :
    (∀ laid : Laid, ∃ ts,
      Diagnostics.empty.scan laid.text =
          (ts ++ [.eof (1 + laid.text.toList.count '\n')], Diagnostics.empty) ∧
        ts.length = laid.pieces.length ∧
        ∀ (i : Nat) (p : Piece) (t : Token), laid.pieces[i]? = some p → ts[i]? = some t →
          p.lexeme.Yields (1 + (laid.before i ++ p.lexeme.chars).count '\n') (some t) none) ∧
      ∀ (source : String) (lexed : List Token),
        lexed ∈ [(Diagnostics.empty.scan source).1, (Diagnostics.empty.scan source).1.dropLast] →
          (Diagnostics.empty.scan (Token.spaced lexed)).1.map Token.unplaced =
              (Diagnostics.empty.scan source).1.map Token.unplaced ∧
            (Diagnostics.empty.scan (Token.spaced lexed)).2 = Diagnostics.empty := by
  refine ⟨fun laid => ?_, fun source lexed hlexed => ?_⟩
  · obtain ⟨ts, hscan, hlength, hts⟩ :=
      Scan.ofChars_pieces laid.apart (1 + laid.front.count '\n')
    refine ⟨ts, ?_, hlength, fun i p t hp ht => ?_⟩
    · rw [Diagnostics.scan, Scan.ofText, Laid.text, String.toList_ofList,
        laid.isLayout.ofChars_append, hscan, List.count_append, Nat.add_assoc]
      rfl
    · have hyields := hts i p t hp ht
      rw [Nat.add_assoc, ← List.count_append, ← List.append_assoc] at hyields
      exact hyields
  · have htokens := Scan.ofText_tokens source
    obtain ⟨gap, hl, hg, htext⟩ := Token.spaced_of_mem htokens hlexed
    obtain ⟨us, last, hscan, hus⟩ := Scan.ofChars_spaced_append
      (fun t (ht : t ∈ (Scan.ofText source).body) => Scan.spelled_of_mem_body ht) hl hg 1
    rw [← htext] at hscan
    refine ⟨?_, congrArg Diagnostics.mk (congrArg Scan.diagnostics hscan)⟩
    calc (Scan.ofText (Token.spaced lexed)).tokens.map Token.unplaced
      _ = us.map Token.unplaced ++ [.eof 0] := by
        rw [Scan.ofText, hscan, List.map_append]
        rfl
      _ = (Scan.ofText source).body.map Token.unplaced ++ [.eof 0] := by rw [hus]
      _ = (Scan.ofText source).tokens.map Token.unplaced := by
        rw [htokens, List.map_append]
        rfl

theorem digits_singleton {d : Char} (h : d.isDigit = true) : Digits [d] :=
  ⟨List.cons_ne_nil d [], List.forall_mem_singleton.2 h⟩

def Laid.quotient : Laid where
  front := ['/', '/', '1', '\n']
  pieces :=
    [⟨⟨.number, ['1', '.', '5']⟩, ['\t'],
        .fraction (digits_singleton (d := '1') rfl) (digits_singleton (d := '5') rfl), rfl,
        .blank (by decide) .nil, separated_cons rfl _⟩,
      ⟨⟨.symbol .slash, ['/']⟩, [' ', '/', '/', '"', '\n'], .symbol .slash, rfl,
        .blank (by decide) (@Layout.comment ['"'] [] (by decide) .nil), separated_cons rfl _⟩,
      ⟨⟨.string, ['"', '/', '/', '\n', '"']⟩, [], @Lexeme.string ['/', '/', '\n'] (by decide), rfl,
        .nil, separated_nil⟩]
  isLayout := @Layout.comment ['1'] [] (by decide) .nil
  apart := by simp [Piece.Apart]

theorem scan_layout_quotient :
    Laid.quotient.text = "//1\n1.5\t/ //\"\n\"//\n\"" ∧
      ∃ ts, Diagnostics.empty.scan Laid.quotient.text = (ts ++ [.eof 4], Diagnostics.empty) ∧
        ts.length = 3 := by
  obtain ⟨ts, hscan, hlength, -⟩ := scan_layout.1 Laid.quotient
  have hlines : 1 + Laid.quotient.text.toList.count '\n' = 4 := by decide +kernel
  rw [hlines] at hscan
  exact ⟨by decide +kernel, ts, hscan, hlength⟩

end LoxExpr
