import Mathlib.Data.List.Forall2
import LoxExpr.Proofs.Lexical.Layout
import LoxExpr.Proofs.Reports
set_option autoImplicit false

namespace LoxExpr

structure Place where
  before : List Char
  segment : Segment

namespace Place

def upTo (p : Place) : List Char := p.before ++ p.segment.chars

def ofSegments (before : List Char) : List Segment → List Place
  | [] => []
  | s :: ss => ⟨before, s⟩ :: ofSegments (before ++ s.chars) ss

/-- The token has the characters of the segment and stands on the line on which it ends. -/
structure HoldsToken (p : Place) (t : Token) : Prop where
  lexeme_eq : t.lexeme.toList = p.segment.chars
  line_eq : t.line = 1 + p.upTo.count '\n'

/-- A stray character is reported on its line, and a string that does not end on the last one. -/
inductive HoldsError (text : List Char) (p : Place) : Diagnostic → Prop where
  | stray : p.segment.shape = .stray →
      HoldsError text p ⟨1 + p.before.count '\n', .line, "Unexpected character."⟩
  | unclosed : p.segment.shape = .unclosed →
      HoldsError text p ⟨1 + text.count '\n', .line, "Unterminated string."⟩

theorem upTo_prefix {before : List Char} {ss : List Segment} {p : Place}
    (h : p ∈ ofSegments before ss) : p.upTo <+: before ++ ss.flatMap Segment.chars := by
  induction ss generalizing before with
  | nil => cases h
  | cons s ss ih =>
    rw [List.flatMap_cons, ← List.append_assoc]
    rcases List.mem_cons.1 h with rfl | h
    · exact List.prefix_append _ _
    · exact ih h

end Place

namespace Segment.Yields

variable {line : Nat} {s : Segment} {t : Option Token} {d : Option Diagnostic}

theorem isToken_eq (h : s.Yields line t d) : s.shape.isToken = t.isSome := by
  cases h <;> rfl

theorem isLexical_eq (h : s.Yields line t d) : s.shape.isLexical = d.isNone := by
  cases h <;> rfl

theorem line_eq {d : Diagnostic} (h : s.Yields line t (some d)) : d.line = line := by
  cases h <;> rfl

end Segment.Yields

theorem First.newline_of_stray {text rest : List Char} {s : Segment} (h : First text s rest)
    (hs : s.shape = .stray) : s.newlines = 0 := by
  cases h with
  | lexeme hl _ =>
    have hlexical := hl.isLexical
    rw [hs] at hlexical
    cases hlexical
  | unclosed _ => cases hs
  | stray _ hnone =>
    refine List.count_eq_zero.2 fun hmem => ?_
    obtain rfl := List.mem_singleton.1 hmem
    exact hnone _ _ (.blank (c := '\n') (by decide)) (List.prefix_append ['\n'] rest)

theorem Place.add_newlines (p : Place) :
    1 + p.before.count '\n' + p.segment.newlines = 1 + p.upTo.count '\n' := by
  rw [upTo, List.count_append, Nat.add_assoc]
  rfl

theorem forall₂_filter_cons {α β : Type} {r : α → β → Prop} {keep : α → Bool} {a : α}
    {b : Option β} {as : List α} {bs : List β} (hkeep : keep a = b.isSome)
    (hr : ∀ x, b = some x → r a x) (h : List.Forall₂ r (as.filter keep) bs) :
    List.Forall₂ r ((a :: as).filter keep) (b.toList ++ bs) := by
  cases b with
  | none =>
    rw [List.filter_cons_of_neg (by simp [hkeep])]
    exact h
  | some x =>
    rw [List.filter_cons_of_pos hkeep]
    exact .cons (hr x rfl) h

theorem Cut.tokens_placed {text : List Char} {ss : List Segment} (h : Cut text ss)
    (before : List Char) : List.Forall₂ Place.HoldsToken
      ((Place.ofSegments before ss).filter (·.segment.shape.isToken))
      (Scan.ofSegments (1 + before.count '\n') ss).body := by
  induction h generalizing before with
  | nil => exact .nil
  | @cons text rest s ss hfirst _ ih =>
    have hline : 1 + before.count '\n' + s.newlines = 1 + (before ++ s.chars).count '\n' :=
      Place.add_newlines ⟨before, s⟩
    have hyields := hfirst.yields (1 + (before ++ s.chars).count '\n')
    rw [Scan.ofSegments, Scan.body_add, hline]
    refine forall₂_filter_cons hyields.isToken_eq (fun t ht => ?_) (ih (before ++ s.chars))
    rw [ht] at hyields
    obtain ⟨htline, hlexeme⟩ := hyields.line_lexeme
    exact ⟨hlexeme, htline⟩

theorem First.holdsError {text rest : List Char} {s : Segment} {t : Option Token} {d : Diagnostic}
    (before : List Char) (h : First text s rest)
    (hd : s.Yields (1 + (before ++ s.chars).count '\n') t (some d)) :
    Place.HoldsError (before ++ text) ⟨before, s⟩ d := by
  have hzero := h.newline_of_stray
  have hlexical := hd.isLexical_eq
  cases h with
  | lexeme hl _ =>
    rw [hl.isLexical] at hlexical
    cases hlexical
  | unclosed _ =>
    cases hd
    exact .unclosed rfl
  | @stray c _ hc hnone =>
    have hcount : (before ++ [c]).count '\n' = before.count '\n' := by
      rw [List.count_append]
      exact congrArg (before.count '\n' + ·) (hzero rfl)
    cases hd
    rw [hcount]
    exact .stray rfl

theorem Cut.diagnostics_placed {text : List Char} {ss : List Segment} (h : Cut text ss)
    (before : List Char) : List.Forall₂ (Place.HoldsError (before ++ text))
      ((Place.ofSegments before ss).filter (!·.segment.shape.isLexical))
      (Scan.ofSegments (1 + before.count '\n') ss).diagnostics := by
  induction h generalizing before with
  | nil => exact .nil
  | @cons text rest s ss hfirst _ ih =>
    have hline : 1 + before.count '\n' + s.newlines = 1 + (before ++ s.chars).count '\n' :=
      Place.add_newlines ⟨before, s⟩
    have hyields := hfirst.yields (1 + (before ++ s.chars).count '\n')
    have hrest := ih (before ++ s.chars)
    rw [List.append_assoc, hfirst.append] at hrest
    rw [Scan.ofSegments, Scan.diagnostics_add, hline]
    refine forall₂_filter_cons ?_ (fun d hd => hfirst.holdsError before (hd ▸ hyields)) hrest
    rw [hyields.isLexical_eq, Option.not_isNone]

/-- Lines that do not go back, all of them from the first to the last of some. -/
structure Ascends (first last : Nat) (lines : List Nat) : Prop where
  pairwise : lines.Pairwise (· ≤ ·)
  bounds : ∀ l ∈ lines, first ≤ l ∧ l ≤ last

namespace Ascends

variable {first last : Nat} {lines : List Nat}

theorem of_forall_eq {line : Nat} (h : ∀ l ∈ lines, l = line) : Ascends line line lines := by
  refine ⟨List.pairwise_of_forall_mem_list fun a ha b hb => ?_, fun l hl => ?_⟩
  · exact Nat.le_of_eq ((h a ha).trans (h b hb).symm)
  · rw [h l hl]
    exact ⟨Nat.le_refl _, Nat.le_refl _⟩

theorem append {line : Nat} {here : List Nat} (hhere : ∀ l ∈ here, l = line)
    (h : Ascends line last lines) (hfirst : first ≤ line) (hlast : line ≤ last) :
    Ascends first last (here ++ lines) := by
  have hsame := of_forall_eq hhere
  refine ⟨List.pairwise_append.2 ⟨hsame.pairwise, h.pairwise, fun a ha b hb => ?_⟩,
    fun l hl => ?_⟩
  · rw [hhere a ha]
    exact (h.bounds b hb).1
  · rcases List.mem_append.1 hl with hl | hl
    · rw [hhere l hl]
      exact ⟨hfirst, hlast⟩
    · obtain ⟨hlow, hhigh⟩ := h.bounds l hl
      exact ⟨Nat.le_trans hfirst hlow, hhigh⟩

end Ascends

theorem YieldsAll.ascends {line : Nat} {ss : List Segment} {ts : List Token}
    {ds : List Diagnostic} (h : YieldsAll line ss ts ds) :
    Ascends line (line + Segment.lines ss) (ts.map Token.line) ∧
      Ascends line (line + Segment.lines ss) (ds.map Diagnostic.line) := by
  induction h with
  | nil line => exact ⟨.of_forall_eq (by simp [Token.eof]), .of_forall_eq (by simp)⟩
  | @cons line s ss t d ts ds hyields _ ih =>
    have hlast : line + s.chars.count '\n' + Segment.lines ss =
        line + Segment.lines (s :: ss) := by
      rw [Segment.lines_cons, Nat.add_assoc]
      rfl
    rw [hlast] at ih
    obtain ⟨htokens, hdiagnostics⟩ := ih
    rw [List.map_append, List.map_append]
    refine ⟨.append ?_ htokens (by omega) (by omega), .append ?_ hdiagnostics (by omega) (by omega)⟩
    · intro l hl
      obtain ⟨u, hu, rfl⟩ := List.mem_map.1 hl
      rw [Option.mem_toList.1 hu] at hyields
      exact hyields.line_lexeme.1
    · intro l hl
      obtain ⟨u, hu, rfl⟩ := List.mem_map.1 hl
      rw [Option.mem_toList.1 hu] at hyields
      exact hyields.line_eq

theorem Accounts.line_mem {ts : List Token} {expr : Option Expr} {syntactic : List Diagnostic}
    (h : Accounts ts expr syntactic) : ∀ d ∈ syntactic, d.line ∈ ts.map Token.line := by
  intro d hd
  cases h with
  | tree _ => cases hd
  | error _ htoken hpoints _ =>
    obtain rfl := List.mem_singleton.1 hd
    rw [hpoints.line_eq]
    exact List.mem_map_of_mem htoken

/-- Tokens and lexical errors stand, in order, for the segments that are read as such. A token is on
the line on which its lexeme ends in the text, a stray character on its own line, and the end of the
text and a string without an end on the last line. So neither the lines of the tokens nor those of
the lexical errors ever go back, and every report lies between the first line and the last. -/
theorem scan_lines (source : String) :
    let last := 1 + source.toList.count '\n'
    ∃ ss ts, Cut source.toList ss ∧ (Diagnostics.empty.scan source).1 = ts ++ [.eof last] ∧
      (∀ p ∈ Place.ofSegments [] ss, p.upTo <+: source.toList) ∧
      List.Forall₂ Place.HoldsToken
        ((Place.ofSegments [] ss).filter (·.segment.shape.isToken)) ts ∧
      List.Forall₂ (Place.HoldsError source.toList)
        ((Place.ofSegments [] ss).filter (!·.segment.shape.isLexical))
        (Diagnostics.empty.scan source).2.items ∧
      Ascends 1 last ((Diagnostics.empty.scan source).1.map Token.line) ∧
      Ascends 1 last ((Diagnostics.empty.scan source).2.items.map Diagnostic.line) ∧
      ∀ d ∈ (Parsed.ofText source).diagnostics.items, 1 ≤ d.line ∧ d.line ≤ last := by
  intro last
  have hcut := cut_segments source.toList
  obtain ⟨htokens, hdiagnostics⟩ := (hcut.yieldsAll 1).ascends
  rw [Segment.lines_segments] at htokens hdiagnostics
  obtain ⟨syntactic, hitems, haccounts⟩ := Diagnostics.ofText_accounts source
  refine ⟨_, _, hcut, Scan.ofText_tokens source, fun p hp => ?_, hcut.tokens_placed [],
    hcut.diagnostics_placed [], htokens, hdiagnostics, fun d hd => ?_⟩
  · have hprefix := Place.upTo_prefix hp
    rwa [hcut.flatMap_chars] at hprefix
  · rw [hitems] at hd
    rcases List.mem_append.1 hd with hd | hd
    · exact hdiagnostics.bounds _ (List.mem_map_of_mem hd)
    · exact htokens.bounds _ (haccounts.line_mem d hd)

/-- A string over two lines stands on the second one. -/
example : (Diagnostics.empty.scan "1\n+\n\n2 \"a\nb\" 3").1.map Token.line =
    [1, 2, 4, 5, 5, 5] := by decide +kernel

end LoxExpr
