import LoxExpr.Proofs.Lexical.Layout
import LoxExpr.Proofs.Lexical.LineBreak
import LoxExpr.Proofs.Reports
set_option autoImplicit false

/-!
Lexical errors keep to themselves. A character that no lexeme begins with is a segment alone and for
the rest of the scan no more than a space, and a string without an end takes nothing but the rest of
the text.
-/

namespace LoxExpr

def StartsNothing (c : Char) : Prop := ∀ shape us, Lexeme shape us → us.head? ≠ some c

/-- The first segments of a text, up to where the rest of it begins. -/
inductive CutTo (rest : List Char) : List Char → List Segment → Prop where
  | here : CutTo rest rest []
  | cons {text left : List Char} {s : Segment} {ss : List Segment} :
      First text s left → CutTo rest left ss → CutTo rest text (s :: ss)

/-- One of the segments of a text begins where its front ends. -/
def SegmentBegins (front rest : List Char) : Prop := ∃ ss, CutTo rest (front ++ rest) ss

namespace StartsNothing

variable {c : Char}

theorem of_next (h : ∀ cs, (Segment.next c cs).1.shape.isLexical = false) : StartsNothing c := by
  intro shape us hl hhead
  obtain ⟨cs, rfl⟩ := List.head?_eq_some_iff.1 hhead
  exact not_prefix_of_next (h cs) shape _ hl (List.prefix_refl _)

theorem not_prefix (h : StartsNothing c) (cs : List Char) (shape : Shape) (us : List Char)
    (hl : Lexeme shape us) : ¬ us <+: c :: cs := by
  intro hu
  obtain ⟨d, ds, rfl⟩ := List.exists_cons_of_ne_nil hl.ne_nil
  obtain ⟨rfl, -⟩ := List.cons_prefix_cons.1 hu
  exact h shape _ hl rfl

theorem ne_newline (h : StartsNothing c) : c ≠ '\n' := by
  rintro rfl
  exact h _ _ (.blank (c := '\n') (by decide)) rfl

theorem ne_quote (h : StartsNothing c) : c ≠ '"' := by
  rintro rfl
  exact h _ _ (.string (List.not_mem_nil (a := '"'))) rfl

theorem segments_cons (h : StartsNothing c) (cs : List Char) :
    segments (c :: cs) = ⟨.stray, [c]⟩ :: segments cs :=
  (Cut.cons (.stray h.ne_quote (h.not_prefix cs)) (cut_segments cs)).eq_segments.symm

theorem ofChars_cons (h : StartsNothing c) (line : Nat) (cs : List Char) :
    Scan.ofChars line (c :: cs) =
      (Scan.ofChars line cs).add (.error ⟨.unexpectedCharacter, line⟩) := by
  have hline : line + Segment.newlines ⟨.stray, [c]⟩ = line := by
    simp [Segment.newlines, h.ne_newline]
  rw [Scan.ofChars, h.segments_cons, Scan.ofSegments, hline]
  rfl

end StartsNothing

theorem Lexeme.comment_concat {us : List Char} {c : Char} (h : Lexeme .comment us)
    (hc : c ≠ '\n') : Lexeme .comment (us ++ [c]) := by
  cases h with
  | @comment body hb =>
    have hbody : '\n' ∉ body ++ [c] := by simp [hb, hc.symm]
    exact .comment hbody

namespace First

variable {text left front after : List Char} {s : Segment} {c : Char}

theorem eq_nil_of_unclosed (h : First text s left) (hs : s.shape = .unclosed) : left = [] := by
  cases h with
  | lexeme hl _ =>
    rw [hs] at hl
    cases hl
  | unclosed _ => rfl
  | stray _ _ => cases hs

theorem of_append (h : First text s (front ++ after)) : First (s.chars ++ front) s front := by
  generalize hleft : front ++ after = left at h
  cases h with
  | lexeme hl hlongest =>
    refine .lexeme hl fun shape us hu hstart => hlongest shape us hu ?_
    rw [← hleft, ← List.append_assoc]
    exact hstart.trans (List.prefix_append _ _)
  | unclosed hnone =>
    obtain ⟨rfl, -⟩ := List.append_eq_nil_iff.1 hleft
    rw [List.append_nil]
    exact .unclosed hnone
  | stray hc hnone =>
    refine .stray hc fun shape us hu hstart => hnone shape us hu ?_
    rw [← hleft]
    exact hstart.trans (List.prefix_append _ _)

theorem not_comment (h : First text s (front ++ c :: after)) (hc : c ≠ '\n') :
    ¬ Lexeme .comment (s.chars ++ front) := by
  intro hcomment
  have hlonger := hcomment.comment_concat hc
  generalize hleft : front ++ c :: after = left at h
  have hstart : s.chars ++ front ++ [c] <+: s.chars ++ left := ⟨after, by simp [← hleft]⟩
  cases h with
  | lexeme _ hlongest =>
    have hlen := hlongest _ _ hlonger hstart
    simp only [List.length_append, List.length_singleton] at hlen
    omega
  | unclosed _ => simp at hleft
  | stray _ hnone => exact hnone _ _ hlonger hstart

theorem to_blank (h : First text s (front ++ c :: after)) (hc : c ≠ '\n') (after' : List Char) :
    First (s.chars ++ front ++ ' ' :: after') s (front ++ ' ' :: after') := by
  have hs : s.shape ≠ .unclosed := fun hs => by simpa using h.eq_nil_of_unclosed hs
  exact h.of_append.append_blank hs (by decide) (.inr (h.not_comment hc)) after'

end First

namespace CutTo

variable {rest text : List Char} {ss : List Segment}

theorem flatMap_chars_append (h : CutTo rest text ss) :
    ss.flatMap Segment.chars ++ rest = text := by
  induction h with
  | here => rfl
  | cons hfirst _ ih => rw [List.flatMap_cons, List.append_assoc, ih, hfirst.append]

theorem cut_append (h : CutTo rest text ss) {us : List Segment} (hrest : Cut rest us) :
    Cut text (ss ++ us) := by
  induction h with
  | here => exact hrest
  | cons hfirst _ ih => exact .cons hfirst ih

theorem cut (h : CutTo rest text ss) : Cut (ss.flatMap Segment.chars) ss := by
  induction h with
  | here => exact .nil
  | cons hfirst hleft ih =>
    rw [← hleft.flatMap_chars_append] at hfirst
    exact .cons hfirst.of_append ih

/-- What stands before a segment is cut the same if a space begins that segment. -/
theorem to_blank {c : Char} {after : List Char} (h : CutTo (c :: after) text ss) (hc : c ≠ '\n')
    (after' : List Char) :
    CutTo (' ' :: after') (ss.flatMap Segment.chars ++ ' ' :: after') ss := by
  induction h with
  | here => exact .here
  | cons hfirst hleft ih =>
    rw [← hleft.flatMap_chars_append] at hfirst
    exact .cons (hfirst.to_blank hc after') ih

end CutTo

namespace SegmentBegins

variable {front rest : List Char}

theorem exists_cutTo (h : SegmentBegins front rest) :
    ∃ ss, CutTo rest (front ++ rest) ss ∧ ss.flatMap Segment.chars = front := by
  obtain ⟨ss, hss⟩ := h
  exact ⟨ss, hss, List.append_cancel_right hss.flatMap_chars_append⟩

theorem segments_append (h : SegmentBegins front rest) :
    segments (front ++ rest) = segments front ++ segments rest := by
  obtain ⟨ss, hss, rfl⟩ := h.exists_cutTo
  rw [← hss.cut.eq_segments]
  exact (hss.cut_append (cut_segments rest)).eq_segments.symm

theorem to_blank {c : Char} {after : List Char} (h : SegmentBegins front (c :: after))
    (hc : c ≠ '\n') (after' : List Char) : SegmentBegins front (' ' :: after') := by
  obtain ⟨ss, hss, rfl⟩ := h.exists_cutTo
  exact ⟨ss, hss.to_blank hc after'⟩

theorem ofChars_append (h : SegmentBegins front rest) (line : Nat) :
    Scan.ofChars line (front ++ rest) =
      ⟨(Scan.ofChars line front).body ++ (Scan.ofChars (line + front.count '\n') rest).tokens,
        (Scan.ofChars line front).errors ++
          (Scan.ofChars (line + front.count '\n') rest).errors⟩ := by
  rw [Scan.ofChars, h.segments_append, Scan.ofSegments_append, Segment.lines_segments]
  rfl

theorem scan_eq {u text : String} (h : SegmentBegins u.toList rest)
    (htext : text.toList = u.toList ++ rest) :
    (Diagnostics.empty.scan text).1 =
        (Scan.ofText u).body ++ (Scan.ofChars (1 + u.toList.count '\n') rest).tokens ∧
      (Diagnostics.empty.scan text).2.items = (Diagnostics.empty.scan u).2.items ++
        (Scan.ofChars (1 + u.toList.count '\n') rest).diagnostics := by
  have hscan := h.ofChars_append 1
  rw [← htext] at hscan
  exact ⟨congrArg Scan.tokens hscan, (congrArg Scan.diagnostics hscan).trans List.map_append⟩

end SegmentBegins

theorem scan_stray {u v : String} {c : Char} (hc : StartsNothing c)
    (h : SegmentBegins u.toList (c :: v.toList)) :
    (Diagnostics.empty.scan (u ++ String.singleton c ++ v)).1 =
        (Diagnostics.empty.scan (u ++ " " ++ v)).1 ∧
      ∃ after, (Diagnostics.empty.scan (u ++ String.singleton c ++ v)).2.items =
          (Diagnostics.empty.scan u).2.items ++
            ⟨1 + u.toList.count '\n', .line, "Unexpected character."⟩ :: after ∧
        (Diagnostics.empty.scan (u ++ " " ++ v)).2.items =
          (Diagnostics.empty.scan u).2.items ++ after := by
  have hblank := h.to_blank hc.ne_newline v.toList
  have hstray : (u ++ String.singleton c ++ v).toList = u.toList ++ c :: v.toList := by simp
  have hspace : (u ++ " " ++ v).toList = u.toList ++ ' ' :: v.toList := by simp
  obtain ⟨htokens, hitems⟩ := h.scan_eq hstray
  obtain ⟨htokens', hitems'⟩ := hblank.scan_eq hspace
  rw [hc.ofChars_cons] at htokens hitems
  rw [Scan.ofChars_blank (by decide)] at htokens' hitems'
  exact ⟨htokens.trans htokens'.symm, _, hitems, hitems'⟩

theorem Scan.ofChars_quote {cs : List Char} (h : '"' ∉ cs) (line : Nat) :
    ofChars line ('"' :: cs) =
      ⟨[.eof (line + cs.count '\n')], [⟨.unterminatedString, line + cs.count '\n'⟩]⟩ := by
  have hlines : Segment.newlines ⟨.unclosed, '"' :: cs⟩ = cs.count '\n' := by
    simp [Segment.newlines]
  rw [ofChars_cons, Segment.next_quote, Segment.quoted_open h, hlines, ofChars, segments_nil]
  rfl

theorem Segment.Yields.message_ne {line : Nat} {s : Segment} {t : Option Token} {d : Diagnostic}
    (h : s.Yields line t (some d)) (hs : s.shape ≠ .unclosed) :
    d.message ≠ "Unterminated string." := by
  cases h with
  | unclosed => exact absurd rfl hs
  | stray => simp

/-- At most the last of the diagnostics is about a string without an end. -/
def OpenLast (line : Nat) (ds : List Diagnostic) : Prop :=
  ∃ front, (∀ d ∈ front, d.message ≠ "Unterminated string.") ∧
    (ds = front ∨ ds = front ++ [⟨line, .line, "Unterminated string."⟩])

theorem OpenLast.append {line : Nat} {here ds : List Diagnostic} (h : OpenLast line ds)
    (hhere : ∀ d ∈ here, d.message ≠ "Unterminated string.") : OpenLast line (here ++ ds) := by
  obtain ⟨front, hfront, hds⟩ := h
  refine ⟨here ++ front, fun d hd => (List.mem_append.1 hd).elim (hhere d) (hfront d), ?_⟩
  rcases hds with rfl | rfl
  · exact .inl rfl
  · exact .inr (List.append_assoc _ _ _).symm

theorem Cut.openLast {text : List Char} {ss : List Segment} (h : Cut text ss) (line : Nat) :
    OpenLast (line + text.count '\n') (Scan.ofSegments line ss).diagnostics := by
  induction h generalizing line with
  | nil => exact ⟨[], by simp, .inl rfl⟩
  | @cons text rest s ss hfirst hrest ih =>
    have hlast : line + s.newlines + rest.count '\n' = line + text.count '\n' := by
      rw [← hfirst.append, List.count_append, Nat.add_assoc]
      rfl
    have hyields := hfirst.yields (line + s.newlines)
    have hlater := ih (line + s.newlines)
    rw [hlast] at hlater
    rw [Scan.ofSegments, Scan.diagnostics_add]
    by_cases hs : s.shape = .unclosed
    · -- A string without an end leaves nothing to be scanned.
      obtain rfl := hfirst.eq_nil_of_unclosed hs
      obtain rfl := hrest.eq_segments.trans segments_nil
      refine ⟨[], by simp, .inr ?_⟩
      rw [Segment.reading, hs, ← hlast]
      rfl
    · refine hlater.append fun d hd => ?_
      rw [Option.mem_toList.1 hd] at hyields
      exact hyields.message_ne hs

/-- A stray character is scanned as a space would be but for the one report on its line, so the text
is parsed to the same. A string without an end takes the rest of the text and nothing before it, and
is reported on the last line; there is at most one such report, after all other lexical errors. -/
theorem scan_errors_isolated (u : String) :
    (∀ (v : String) (c : Char), StartsNothing c → SegmentBegins u.toList (c :: v.toList) →
      let stray := u ++ String.singleton c ++ v
      let blank := u ++ " " ++ v
      (Diagnostics.empty.scan stray).1 = (Diagnostics.empty.scan blank).1 ∧
        (∃ after, (Diagnostics.empty.scan stray).2.items = (Diagnostics.empty.scan u).2.items ++
            ⟨1 + u.toList.count '\n', .line, "Unexpected character."⟩ :: after ∧
          (Diagnostics.empty.scan blank).2.items =
            (Diagnostics.empty.scan u).2.items ++ after) ∧
        ∃ expr syntactic, Accounts (Diagnostics.empty.scan blank).1 expr syntactic ∧
          Parsed.ofText stray = ⟨expr, ⟨(Diagnostics.empty.scan stray).2.items ++ syntactic⟩⟩ ∧
          Parsed.ofText blank = ⟨expr, ⟨(Diagnostics.empty.scan blank).2.items ++ syntactic⟩⟩) ∧
    (∀ w : String, '"' ∉ w.toList → SegmentBegins u.toList ('"' :: w.toList) →
      let last := 1 + u.toList.count '\n' + w.toList.count '\n'
      ∃ ts, (Diagnostics.empty.scan u).1 = ts ++ [.eof (1 + u.toList.count '\n')] ∧
        (Diagnostics.empty.scan (u ++ "\"" ++ w)).1 = ts ++ [.eof last] ∧
        (Diagnostics.empty.scan (u ++ "\"" ++ w)).2.items =
          (Diagnostics.empty.scan u).2.items ++ [⟨last, .line, "Unterminated string."⟩]) ∧
    OpenLast (1 + u.toList.count '\n') (Diagnostics.empty.scan u).2.items := by
  refine ⟨fun v c hc h => ?_, fun w hw h => ?_, (cut_segments u.toList).openLast 1⟩
  · obtain ⟨htokens, hitems⟩ := scan_stray hc h
    obtain ⟨expr, syntactic, haccounts, hparsed⟩ :=
      Parsed.exists_ofText_eq (Scan.ended_ofText (u ++ " " ++ v))
    exact ⟨htokens, hitems, expr, syntactic, haccounts, hparsed _ htokens, hparsed _ rfl⟩
  · have htext : (u ++ "\"" ++ w).toList = u.toList ++ '"' :: w.toList := by simp
    obtain ⟨htokens, hitems⟩ := h.scan_eq htext
    rw [Scan.ofChars_quote hw] at htokens hitems
    exact ⟨_, Scan.ofText_tokens u, htokens, hitems⟩

theorem scan_errors_isolated_point :
    (StartsNothing '@' ∧ SegmentBegins "1.".toList ('@' :: "5".toList) ∧
      (Diagnostics.empty.scan "1.@5").1 = (Diagnostics.empty.scan "1. 5").1 ∧
      (Diagnostics.empty.scan "1.@5").2.items = [⟨1, .line, "Unexpected character."⟩]) ∧
    '"' ∉ "two\nlines".toList ∧ SegmentBegins "1.".toList ('"' :: "two\nlines".toList) ∧
      ∃ ts, (Diagnostics.empty.scan "1.").1 = ts ++ [.eof 1] ∧
        (Diagnostics.empty.scan "1.\"two\nlines").1 = ts ++ [.eof 2] ∧
        (Diagnostics.empty.scan "1.\"two\nlines").2.items =
          [⟨2, .line, "Unterminated string."⟩] := by
  have hat : StartsNothing '@' := .of_next fun _ => rfl
  have hbegins : SegmentBegins "1.".toList ('@' :: "5".toList) :=
    ⟨[⟨.number, ['1']⟩, ⟨.symbol .dot, ['.']⟩],
      .cons (first_next '1' _) (.cons (first_next '.' _) .here)⟩
  have hopens : SegmentBegins "1.".toList ('"' :: "two\nlines".toList) :=
    ⟨[⟨.number, ['1']⟩, ⟨.symbol .dot, ['.']⟩],
      .cons (first_next '1' _) (.cons (first_next '.' _) .here)⟩
  have hnone : (Diagnostics.empty.scan "1.").2.items = [] := by decide +kernel
  have hblank : (Diagnostics.empty.scan "1. 5").2.items = [] := by decide +kernel
  have hline : 1 + "1.".toList.count '\n' = 1 := by decide +kernel
  have hlines : "two\nlines".toList.count '\n' = 1 := by decide +kernel
  have hquote : '"' ∉ "two\nlines".toList := by decide +kernel
  obtain ⟨hstray, hopen, -⟩ := scan_errors_isolated "1."
  obtain ⟨htokens, ⟨after, hitems, hafter⟩, -⟩ := hstray "5" '@' hat hbegins
  obtain ⟨ts, hfront, htext, hreport⟩ := hopen "two\nlines" hquote hopens
  rw [hline] at hitems hfront
  rw [hline, hlines] at htext hreport
  rw [hnone] at hitems hafter hreport
  obtain rfl : after = [] := hafter.symm.trans hblank
  exact ⟨⟨hat, hbegins, htokens, hitems⟩, hquote, hopens, ts, hfront, htext, hreport⟩

end LoxExpr
