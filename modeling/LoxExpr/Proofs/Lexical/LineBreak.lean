import LoxExpr.Proofs.Lexical.Composition
set_option autoImplicit false

namespace LoxExpr

theorem Digits.blank_notMem {ds : List Char} {c : Char} (h : Digits ds)
    (hc : c ∈ [' ', '\t', '\r', '\n']) : c ∉ ds := by
  intro hmem
  have hnone := isBlank_eq_false (.inl (h.2 c hmem))
  rw [isBlank_iff.2 hc] at hnone
  cases hnone

theorem Digits.newline_notMem {ds : List Char} (h : Digits ds) : '\n' ∉ ds :=
  h.blank_notMem (by decide)

theorem Lexeme.blank_cases {shape : Shape} {us : List Char} {c : Char} (h : Lexeme shape us)
    (hc : c ∈ [' ', '\t', '\r', '\n']) (hmem : c ∈ us) :
    us = [c] ∨ us.head? = some '"' ∨ shape = .comment ∧ c ≠ '\n' := by
  have hblank := isBlank_iff.2 hc
  cases h with
  | symbol s =>
    have hnone : ∀ d ∈ s.text.toList, isBlank d = false := by
      cases s <;> simp [Symbol.text, isBlank]
    rw [hnone c hmem] at hblank
    cases hblank
  | whole hd => exact absurd hmem (hd.blank_notMem hc)
  | fraction hd hf =>
    rcases List.mem_append.1 hmem with hmem | hmem
    · exact absurd hmem (hd.blank_notMem hc)
    · rcases List.mem_cons.1 hmem with rfl | hmem
      · exact absurd hc (by decide)
      · exact absurd hmem (hf.blank_notMem hc)
  | @word d ds hd hds =>
    have hpart : c.isDigit = true ∨ isWordStart c = true := by
      rcases List.mem_cons.1 hmem with rfl | hmem
      · exact .inr (isWordStart_iff.2 hd)
      · have hcs := hds c hmem
        rw [Char.isAlphanum, Bool.or_eq_true, or_right_comm] at hcs
        exact hcs.symm.imp_right isWordStart_iff.2
    rw [isBlank_eq_false hpart] at hblank
    cases hblank
  | string _ => exact .inr (.inl rfl)
  | comment hb =>
    refine .inr (.inr ⟨rfl, ?_⟩)
    rintro rfl
    exact hb (by simpa using hmem)
  | blank hd =>
    obtain rfl := List.mem_singleton.1 hmem
    exact .inl rfl

theorem Lexeme.comment_of_prefix {text us : List Char} {c : Char} (h : Lexeme .comment us)
    (ht : text ≠ []) (hu : text ++ [c] <+: us) : Lexeme .comment text ∨ c = '/' := by
  obtain ⟨d, ds, rfl⟩ := List.exists_cons_of_ne_nil ht
  cases h with
  | @comment body hb =>
    obtain ⟨rfl, htail⟩ := List.cons_prefix_cons.1 hu
    cases ds with
    | nil => exact .inr (List.cons_prefix_cons.1 htail).1
    | cons e es =>
      obtain ⟨rfl, hes⟩ := List.cons_prefix_cons.1 htail
      exact .inl (.comment fun hmem => hb (hes.subset (List.mem_append_left [c] hmem)))

/-- A lexeme that begins before a blank ends before it too, unless a quote begins it or the text
before the blank is a comment that goes on. -/
theorem Lexeme.prefix_of_blank {shape : Shape} {us text after : List Char} {c : Char}
    (h : Lexeme shape us) (hc : c ∈ [' ', '\t', '\r', '\n']) (hq : text.head? ≠ some '"')
    (ht : text ≠ []) (hn : c = '\n' ∨ ¬ Lexeme .comment text) (hu : us <+: text ++ c :: after) :
    us <+: text := by
  have hus : us.head? ≠ some '"' := by
    intro hhead
    obtain ⟨vs, rfl⟩ := List.head?_eq_some_iff.1 hhead
    obtain ⟨d, ds, rfl⟩ := List.exists_cons_of_ne_nil ht
    obtain ⟨rfl, -⟩ := List.cons_prefix_cons.1 hu
    exact hq rfl
  have hblank : text ++ [c] <+: text ++ c :: after := ⟨after, by simp⟩
  -- A lexeme longer than the text would hold the blank.
  by_cases hle : us.length ≤ text.length
  · exact List.prefix_of_prefix_length_le hu (List.prefix_append text _) hle
  · have hlonger : text ++ [c] <+: us := by
      refine List.prefix_of_prefix_length_le hblank hu ?_
      simp only [List.length_append, List.length_singleton]
      omega
    rcases h.blank_cases hc (hlonger.subset (by simp)) with rfl | hhead | ⟨rfl, hne⟩
    · have hlen := hlonger.length_le
      have hpos := List.length_pos_iff.2 ht
      simp only [List.length_append, List.length_singleton] at hlen
      omega
    · exact absurd hhead hus
    · rcases h.comment_of_prefix ht hlonger with hcomment | rfl
      · exact absurd hcomment (hn.resolve_left hne)
      · exact absurd hc (by decide)

namespace Segment

theorem quoted_open {cs : List Char} (h : '"' ∉ cs) :
    quoted cs = (⟨.unclosed, '"' :: cs⟩, []) := by
  have htake : (cs ++ []).takeWhile (· != '"') = cs := takeWhile_run (bne_of_notMem h) (by simp)
  have hdrop : (cs ++ []).dropWhile (· != '"') = [] := dropWhile_run (bne_of_notMem h) (by simp)
  rw [List.append_nil] at htake hdrop
  unfold quoted
  rw [htake, hdrop]

/-- A closed string ends where it does whatever comes after. -/
theorem quoted_closed {s : Segment} {cs rest : List Char} (h : quoted cs = (s, rest))
    (hs : s.shape ≠ .unclosed) (after : List Char) :
    quoted (cs ++ after) = (s, rest ++ after) := by
  by_cases hq : '"' ∈ cs
  · obtain ⟨body, tail, rfl, hb⟩ := List.eq_append_cons_of_mem hq
    rw [quoted_body hb] at h
    obtain ⟨rfl, rfl⟩ := Prod.mk.inj h
    rw [List.append_assoc, List.cons_append, quoted_body hb]
  · rw [quoted_open hq] at h
    obtain ⟨rfl, -⟩ := Prod.mk.inj h
    exact absurd rfl hs

end Segment

theorem First.append_blank {text rest : List Char} {s : Segment} {c : Char}
    (h : First text s rest) (hs : s.shape ≠ .unclosed) (hc : c ∈ [' ', '\t', '\r', '\n'])
    (hn : c = '\n' ∨ ¬ Lexeme .comment text) (after : List Char) :
    First (text ++ c :: after) s (rest ++ c :: after) := by
  -- A string may go over the blank, but a closed one has ended before it.
  by_cases hq : text.head? = some '"'
  · obtain ⟨cs, rfl⟩ := List.head?_eq_some_iff.1 hq
    obtain ⟨d, ds, heq, hnext⟩ := h.eq_next
    obtain ⟨rfl, rfl⟩ := List.cons.inj heq
    have hfirst := first_next '"' (cs ++ c :: after)
    rw [Segment.next_quote, Segment.quoted_closed hnext hs] at hfirst
    exact hfirst
  · have hne := h.ne_nil
    cases h with
    | lexeme hl hlongest =>
      rw [List.append_assoc]
      refine .lexeme hl fun shape us hu hprefix => hlongest shape us hu ?_
      rw [← List.append_assoc] at hprefix
      exact hu.prefix_of_blank hc hq (by simp [hne]) hn hprefix
    | unclosed _ => exact absurd rfl hs
    | stray hd hnone =>
      exact .stray hd fun shape us hu hprefix =>
        hnone shape us hu (hu.prefix_of_blank hc hq (by simp) hn hprefix)

theorem Cut.append_newline {text after : List Char} {ss us : List Segment} (h : Cut text ss)
    (hs : ∀ s ∈ ss, s.shape ≠ .unclosed) (ha : Cut after us) :
    Cut (text ++ '\n' :: after) (ss ++ ⟨.blank, ['\n']⟩ :: us) := by
  induction h with
  | nil => exact .cons (first_next '\n' after) ha
  | @cons text rest s ss hfirst _ ih =>
    have hrest := ih fun u hu => hs u (List.mem_cons_of_mem s hu)
    exact .cons (hfirst.append_blank (hs s List.mem_cons_self) (by decide) (.inl rfl) after) hrest

theorem segments_append_newline {text : List Char}
    (h : ∀ s ∈ segments text, s.shape ≠ .unclosed) (after : List Char) :
    segments (text ++ '\n' :: after) = segments text ++ ⟨.blank, ['\n']⟩ :: segments after :=
  ((cut_segments text).append_newline h (cut_segments after)).eq_segments.symm

namespace Scan

theorem mem_errors_of_reading {s : Segment} {ss : List Segment} (hs : s ∈ ss) (line : Nat) :
    ∃ last, ∀ e, s.reading last = .error e → e ∈ (ofSegments line ss).errors := by
  induction ss generalizing line with
  | nil => cases hs
  | cons u us ih =>
    rw [ofSegments]
    rcases List.mem_cons.1 hs with rfl | hs
    · refine ⟨line + s.newlines, fun e he => ?_⟩
      rw [he]
      exact List.mem_cons_self
    · obtain ⟨last, hlast⟩ := ih hs (line + u.newlines)
      refine ⟨last, fun e he => ?_⟩
      have hmem := hlast e he
      cases u.reading (line + u.newlines) with
      | nothing => exact hmem
      | token t => exact hmem
      | error d => exact List.mem_cons_of_mem d hmem

theorem ofChars_append_newline {text : List Char}
    (h : ∀ s ∈ segments text, s.shape ≠ .unclosed) (after : List Char) (line : Nat) :
    ofChars line (text ++ '\n' :: after) =
      ⟨(ofChars line text).body ++
          ((ofChars line after).below (1 + text.count '\n')).tokens,
        (ofChars line text).errors ++
          ((ofChars line after).below (1 + text.count '\n')).errors⟩ := by
  have hbreak : line + text.count '\n' + Segment.newlines ⟨.blank, ['\n']⟩ =
      line + (1 + text.count '\n') := by
    have hone : Segment.newlines ⟨.blank, ['\n']⟩ = 1 := rfl
    omega
  rw [ofChars, segments_append_newline h, ofSegments_append, Segment.lines_segments, ofSegments,
    hbreak, ofSegments_add]
  rfl

end Scan

/-- Before a line break a text is scanned as by itself unless a string is left open, and after it as
by itself but further down. -/
theorem scan_append_newline (a b : String)
    (h : ∀ d ∈ (Diagnostics.empty.scan a).2.items, d.message ≠ "Unterminated string.") :
    ∃ ts, (Diagnostics.empty.scan a).1 = ts ++ [.eof (1 + a.toList.count '\n')] ∧
      (Diagnostics.empty.scan (a ++ "\n" ++ b)).1 =
        ts ++ (Diagnostics.empty.scan b).1.map (Token.below (1 + a.toList.count '\n')) ∧
      (Diagnostics.empty.scan (a ++ "\n" ++ b)).2.items =
        (Diagnostics.empty.scan a).2.items ++
          (Diagnostics.empty.scan b).2.items.map (Diagnostic.below (1 + a.toList.count '\n')) := by
  have hclosed : ∀ s ∈ segments a.toList, s.shape ≠ .unclosed := by
    intro s hs hshape
    obtain ⟨last, hlast⟩ := Scan.mem_errors_of_reading hs 1
    have herror := hlast ⟨.unterminatedString, last⟩ (by rw [Segment.reading, hshape])
    exact h _ (List.mem_map_of_mem (f := LexError.diagnostic) herror) rfl
  have htext : (a ++ "\n" ++ b).toList = a.toList ++ '\n' :: b.toList := by
    rw [String.toList_append, String.toList_append, List.append_assoc]
    rfl
  have hscan := Scan.ofChars_append_newline hclosed b.toList 1
  rw [← htext] at hscan
  refine ⟨(Scan.ofText a).body, Scan.ofText_tokens a, congrArg Scan.tokens hscan, ?_⟩
  calc (Scan.ofText (a ++ "\n" ++ b)).diagnostics
    _ = ((Scan.ofText a).errors ++
          ((Scan.ofText b).below (1 + a.toList.count '\n')).errors).map LexError.diagnostic :=
      congrArg Scan.diagnostics hscan
    _ = (Scan.ofText a).diagnostics ++
          (Scan.ofText b).diagnostics.map (Diagnostic.below (1 + a.toList.count '\n')) := by
      rw [List.map_append, Scan.below, Scan.diagnostics, Scan.diagnostics, List.map_map,
        List.map_map]
      rfl

theorem scan_append_newline_seam :
    ∃ ts, (Diagnostics.empty.scan "@ \"two\nlines\" 1.").1 = ts ++ [.eof 2] ∧
      (Diagnostics.empty.scan ("@ \"two\nlines\" 1." ++ "\n" ++ "5 \"open")).1 =
        ts ++ (Diagnostics.empty.scan "5 \"open").1.map (Token.below 2) ∧
      (Diagnostics.empty.scan ("@ \"two\nlines\" 1." ++ "\n" ++ "5 \"open")).2.items =
        [⟨1, .line, "Unexpected character."⟩, ⟨3, .line, "Unterminated string."⟩] := by
  have hlines : 1 + "@ \"two\nlines\" 1.".toList.count '\n' = 2 := by decide +kernel
  have hitems : (Diagnostics.empty.scan "@ \"two\nlines\" 1.").2.items ++
      (Diagnostics.empty.scan "5 \"open").2.items.map (Diagnostic.below 2) =
        [⟨1, .line, "Unexpected character."⟩, ⟨3, .line, "Unterminated string."⟩] := by
    decide +kernel
  have h := scan_append_newline "@ \"two\nlines\" 1." "5 \"open" (by decide +kernel)
  rw [hlines, hitems] at h
  exact h

end LoxExpr
