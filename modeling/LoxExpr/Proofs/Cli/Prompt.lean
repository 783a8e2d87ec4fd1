import Mathlib.Data.List.Forall2
import LoxExpr.Cli.Program
set_option autoImplicit false

/-!
A session at the prompt. The input is cut after each line feed, and every line up to the one that
ends the session comes to what a script of that content comes to: what is written is one such
report after the other, with a prompt before each and one prompt at the end, and how the program
ends depends on nothing but why the session did.
-/

namespace LoxExpr.Cli

/-- The lines of an input cut after each line feed; only the last one may lack it. -/
inductive CutAfterFeeds : List UInt8 → List (List UInt8) → Prop where
  | nil : CutAfterFeeds [] []
  | last {l : List UInt8} : l ≠ [] → 10 ∉ l → CutAfterFeeds l [l]
  | line {l bs : List UInt8} {ls : List (List UInt8)} :
      10 ∉ l → CutAfterFeeds bs ls → CutAfterFeeds (l ++ 10 :: bs) ((l ++ [10]) :: ls)

theorem cutLines_open {l : List UInt8} (hl : l ≠ []) (h : 10 ∉ l) : cutLines l = [l] := by
  induction l with
  | nil => exact absurd rfl hl
  | cons b l ih =>
    have hb : ¬ b = 10 := fun hb => h (by simp [hb])
    rw [cutLines, if_neg hb]
    cases l with
    | nil => rfl
    | cons c l => rw [ih (by simp) (fun hc => h (List.mem_cons_of_mem b hc))]

theorem cutLines_line {l : List UInt8} (h : 10 ∉ l) (bs : List UInt8) :
    cutLines (l ++ 10 :: bs) = (l ++ [10]) :: cutLines bs := by
  induction l with
  | nil => rw [List.nil_append, cutLines, if_pos rfl, List.nil_append]
  | cons b l ih =>
    have hb : ¬ b = 10 := fun hb => h (by simp [hb])
    rw [List.cons_append, cutLines, if_neg hb, ih fun hl => h (List.mem_cons_of_mem b hl)]
    rfl

theorem CutAfterFeeds.eq_cutLines {bs : List UInt8} {ls : List (List UInt8)}
    (h : CutAfterFeeds bs ls) : ls = cutLines bs := by
  induction h with
  | nil => rfl
  | last hl hfeed => exact (cutLines_open hl hfeed).symm
  | line hfeed _ ih => rw [cutLines_line hfeed, ih]

theorem CutAfterFeeds.cons {b : UInt8} {bs l : List UInt8} {ls : List (List UInt8)} (hb : b ≠ 10)
    (h : CutAfterFeeds bs (l :: ls)) : CutAfterFeeds (b :: bs) ((b :: l) :: ls) := by
  cases h with
  | last _ hfeed => exact .last (by simp) (by simpa [hb.symm] using hfeed)
  | @line l bs _ hfeed hrest => exact .line (l := b :: l) (by simpa [hb.symm] using hfeed) hrest

theorem cutAfterFeeds_cutLines (bs : List UInt8) : CutAfterFeeds bs (cutLines bs) := by
  induction bs with
  | nil => exact .nil
  | cons b bs ih =>
    rw [cutLines]
    split
    · next hb =>
      subst hb
      exact .line (l := []) (by simp) ih
    · next hb =>
      cases hls : cutLines bs with
      | nil =>
        rw [hls] at ih
        cases ih
        exact .last (by simp) (by simpa using Ne.symm hb)
      | cons l ls =>
        rw [hls] at ih
        exact ih.cons hb

theorem Output.after_empty (o : Output) : o.after .empty = o := by
  obtain ⟨exit, out, err⟩ := o
  show (⟨exit, ⟨"" ++ out, "" ++ err⟩⟩ : Output) = _
  rw [String.empty_append, String.empty_append]

theorem Output.after_after (o : Output) (r r' : Report) :
    (o.after r).after r' = o.after (r' ++ r) := by
  obtain ⟨exit, out, err⟩ := o
  show (⟨exit, ⟨r'.out ++ (r.out ++ out), r'.err ++ (r.err ++ err)⟩⟩ : Output) = _
  rw [← String.append_assoc, ← String.append_assoc]
  rfl

def Encodes (l : List UInt8) (source : String) : Prop := source.toByteArray.data.toList = l

/-- How a session ends at a line, or at the end of the input: the code with which the program ends
and what is still written to standard error. -/
inductive Closes : Option (List UInt8) → Nat → String → Prop where
  | endOfInput : Closes none 0 ""
  | blank {l : List UInt8} {source : String} : Encodes l source →
      (∀ c ∈ source.toList, c = '\n' ∨ c = '\r') → Closes (some l) 0 ""
  | unreadable {l : List UInt8} : (∀ source, ¬ Encodes l source) →
      Closes (some l) 74 "Error: could not read input: stream did not contain valid UTF-8\n"

def EndsSession (l : List UInt8) : Prop := ∃ code err, Closes (some l) code err

theorem decodeText?_eq_some_iff {l : List UInt8} {source : String} :
    decodeText? l = some source ↔ Encodes l source := by
  have hbytes : source.toByteArray = ⟨l.toArray⟩ ↔ Encodes l source := by
    rw [Encodes]
    constructor
    · intro h; rw [h]
    · rintro rfl; rfl
  rw [← hbytes, decodeText?, String.fromUTF8?]
  split
  · next hvalid => rw [Option.some.injEq, ← String.toByteArray_inj]; exact eq_comm
  · next hvalid =>
    constructor
    · intro h; cases h
    · intro h; exact absurd (h ▸ source.isValidUTF8) hvalid

theorem decodeText?_eq_none_iff {l : List UInt8} :
    decodeText? l = none ↔ ∀ source, ¬ Encodes l source := by
  rw [Option.eq_none_iff_forall_ne_some]
  exact forall_congr' fun source => not_congr decodeText?_eq_some_iff

/-- The world runs a script of the given content, with the flags `a` of another world and in that
world's environment. Its input is its own. -/
structure World.Scripts (w : World) (a : Arguments) (l : List UInt8) (v : World) : Prop where
  reads : ∃ path, Arguments.read v.arguments = .ok { a with script := some path } ∧
    v.directory.read path = .ok l
  noColor_eq : v.noColor = w.noColor

theorem World.Scripts.run_eq {w v : World} {a : Arguments} {l : List UInt8} {source : String}
    (h : w.Scripts a l v) (hl : Encodes l source) :
    run v = (a.settings w.noColor).runScript source := by
  obtain ⟨⟨path, hargs, hfile⟩, hcolor⟩ := h
  rw [run, hargs, hcolor]
  dsimp only
  rw [hfile, Settings.script, decodeText?_eq_some_iff.2 hl]
  rfl

theorem World.exists_scripts (w : World) {a : Arguments} (h : a.script = none) (l : List UInt8) :
    ∃ v, w.Scripts a l v := by
  obtain ⟨script, tokens, noColor⟩ := a
  obtain rfl : script = none := h
  have hflags : ∃ flags, Arguments.read (flags ++ ["script"]) =
      .ok ⟨some "script", tokens, noColor⟩ := by
    cases tokens
    · cases noColor
      · exact ⟨[], rfl⟩
      · exact ⟨["--no-color"], rfl⟩
    · cases noColor
      · exact ⟨["--tokens"], rfl⟩
      · exact ⟨["--tokens", "--no-color"], rfl⟩
  obtain ⟨flags, hflags⟩ := hflags
  exact ⟨⟨flags ++ ["script"], .ofList [("script", .file l)], [], w.noColor⟩,
    ⟨"script", hflags, rfl⟩, rfl⟩

namespace Settings

variable {s : Settings} {l : List UInt8}

theorem line_of_unreadable (h : ∀ source, ¬ Encodes l source) : s.line l = .inr ⟨.unreadable,
    ⟨"", "Error: could not read input: stream did not contain valid UTF-8\n"⟩⟩ := by
  rw [line, decodeText?_eq_none_iff.2 h]
  rfl

theorem line_of_encodes {source : String} (h : Encodes l source) :
    s.line l = if source.toList.all (fun c => c == '\n' || c == '\r') then .inr ⟨.success, .empty⟩
      else .inl (s.report source).1 := by
  rw [line, decodeText?_eq_some_iff.2 h]

theorem line_of_blank {source : String} (h : Encodes l source)
    (hblank : ∀ c ∈ source.toList, c = '\n' ∨ c = '\r') :
    s.line l = .inr ⟨.success, .empty⟩ := by
  rw [line_of_encodes h, if_pos (by simpa using hblank)]

theorem line_of_not_endsSession {w v : World} {a : Arguments} (h : ¬ EndsSession l)
    (hv : w.Scripts a l v) : (a.settings w.noColor).line l = .inl (run v).report := by
  cases hdecode : decodeText? l with
  | none => exact absurd ⟨74, _, .unreadable (decodeText?_eq_none_iff.1 hdecode)⟩ h
  | some source =>
    have hsource := decodeText?_eq_some_iff.1 hdecode
    have hblank : ¬ ∀ c ∈ source.toList, c = '\n' ∨ c = '\r' :=
      fun hall => h ⟨0, _, .blank hsource hall⟩
    rw [line_of_encodes hsource, if_neg (by simpa using hblank), hv.run_eq hsource]
    rfl

/-- What is left of a session that ends here: one more prompt, and what the end writes. -/
theorem prompt_of_closes {ls : List (List UInt8)} {code : Nat} {err : String}
    (h : Closes ls.head? code err) :
    (s.prompt ls).exit.code = code ∧ (s.prompt ls).report = ⟨s.promptText.out, err⟩ := by
  cases ls with
  | nil =>
    cases h
    exact ⟨rfl, rfl⟩
  | cons l ls =>
    rw [prompt]
    cases h with
    | blank hsource hblank =>
      rw [line_of_blank hsource hblank]
      exact ⟨rfl, congrArg (Report.mk · "") String.append_empty⟩
    | unreadable htext =>
      rw [line_of_unreadable htext]
      exact ⟨rfl, congrArg (Report.mk · _) String.append_empty⟩

theorem prompt_congr {ls ls' : List (List UInt8)} (h : ls.head? = ls'.head?)
    (hend : ∀ l ∈ ls.head?, EndsSession l) : s.prompt ls = s.prompt ls' := by
  cases ls with
  | nil => rw [List.head?_eq_none_iff.1 h.symm]
  | cons l ls =>
    obtain ⟨ls', rfl⟩ := List.head?_eq_some_iff.1 h.symm
    obtain ⟨code, err, hcloses⟩ := hend l rfl
    rw [prompt, prompt]
    cases hcloses with
    | blank hsource hblank => rw [line_of_blank hsource hblank]
    | unreadable htext => rw [line_of_unreadable htext]

theorem prompt_cons {r : Report} (h : s.line l = .inl r) (ls : List (List UInt8)) :
    s.prompt (l :: ls) = (s.prompt ls).after (s.promptText ++ r) := by
  rw [prompt, h]

/-- The reports of worlds one after the other, with a prompt before each. -/
def prompted (s : Settings) (vs : List World) : Report where
  out := String.join (vs.map fun v => s.promptText.out ++ (run v).report.out)
  err := String.join (vs.map fun v => (run v).report.err)

theorem prompted_cons (v : World) (vs : List World) :
    s.prompted (v :: vs) = s.promptText ++ (run v).report ++ s.prompted vs := by
  have herr : s.promptText.err ++ (run v).report.err = (run v).report.err := String.empty_append
  rw [prompted, List.map_cons, List.map_cons, String.join_cons, String.join_cons, ← herr]
  rfl

theorem prompt_append {w : World} {a : Arguments} {ls : List (List UInt8)} {vs : List World}
    (hvs : List.Forall₂ (w.Scripts a) ls vs) (hls : ∀ l ∈ ls, ¬ EndsSession l)
    (rest : List (List UInt8)) :
    (a.settings w.noColor).prompt (ls ++ rest) =
      ((a.settings w.noColor).prompt rest).after ((a.settings w.noColor).prompted vs) := by
  induction hvs with
  | nil => exact (Output.after_empty _).symm
  | @cons l v ls vs hv _ ih =>
    have hline := line_of_not_endsSession (hls l List.mem_cons_self) hv
    rw [List.cons_append, prompt_cons hline, ih fun u hu => hls u (List.mem_cons_of_mem l hu),
      prompted_cons, Output.after_after]

end Settings

theorem exists_closes (ls : List (List UInt8)) : ∃ front rest code err, ls = front ++ rest ∧
    (∀ l ∈ front, ¬ EndsSession l) ∧ Closes rest.head? code err := by
  induction ls with
  | nil => exact ⟨[], [], 0, "", rfl, by simp, .endOfInput⟩
  | cons l ls ih =>
    by_cases hl : EndsSession l
    · obtain ⟨code, err, h⟩ := hl
      exact ⟨[], l :: ls, code, err, rfl, by simp, h⟩
    · obtain ⟨front, rest, code, err, rfl, hfront, h⟩ := ih
      exact ⟨l :: front, rest, code, err, rfl, by simpa [hl] using hfront, h⟩

theorem World.exists_forall₂_scripts (w : World) {a : Arguments} (h : a.script = none)
    (ls : List (List UInt8)) : ∃ vs, List.Forall₂ (w.Scripts a) ls vs := by
  induction ls with
  | nil => exact ⟨[], .nil⟩
  | cons l ls ih =>
    obtain ⟨v, hv⟩ := w.exists_scripts h l
    obtain ⟨vs, hvs⟩ := ih
    exact ⟨v :: vs, .cons hv hvs⟩

theorem run_of_no_script {w : World} {a : Arguments} (h : Arguments.read w.arguments = .ok a)
    (hscript : a.script = none) :
    run w = (a.settings w.noColor).prompt (cutLines w.input) := by
  rw [run, h]
  dsimp only
  rw [hscript]

/-- A session writes what scripts write that have its lines for their content, up to the line that
ends it, with a prompt before each report and one at the end. Why it ends is all that decides how
the program ends, and what comes after the last line that is looked at makes no difference. -/
theorem run_prompt {w : World} {a : Arguments} (h : Arguments.read w.arguments = .ok a)
    (hscript : a.script = none) :
    let sign := (a.settings w.noColor).style.paint .darkGrey "> "
    ∃ ls rest code err, CutAfterFeeds w.input (ls ++ rest) ∧ (∀ l ∈ ls, ¬ EndsSession l) ∧
      Closes rest.head? code err ∧
      (∃ vs, List.Forall₂ (w.Scripts a) ls vs) ∧
      (∀ vs, List.Forall₂ (w.Scripts a) ls vs →
        (run w).exit.code = code ∧
        (run w).report.out = String.join (vs.map fun v => sign ++ (run v).report.out) ++ sign ∧
        (run w).report.err = String.join (vs.map fun v => (run v).report.err) ++ err) ∧
      ∀ (v : World) (rest' : List (List UInt8)), v.arguments = w.arguments →
        v.noColor = w.noColor → CutAfterFeeds v.input (ls ++ rest') →
        rest'.head? = rest.head? → run v = run w := by
  intro sign
  obtain ⟨ls, rest, code, err, hcut, hls, hcloses⟩ := exists_closes (cutLines w.input)
  have hrun := run_of_no_script h hscript
  rw [hcut] at hrun
  refine ⟨ls, rest, code, err, hcut ▸ cutAfterFeeds_cutLines w.input, hls, hcloses,
    w.exists_forall₂_scripts hscript ls, fun vs hvs => ?_, fun v rest' hargs hcolor hv hhead => ?_⟩
  · obtain ⟨hcode, hreport⟩ := Settings.prompt_of_closes (s := a.settings w.noColor) hcloses
    rw [hrun, Settings.prompt_append hvs hls]
    refine ⟨hcode, ?_, ?_⟩
    · rw [Output.after, Report.append_out, hreport]
      rfl
    · rw [Output.after, Report.append_err, hreport]
      rfl
  · obtain ⟨vs, hvs⟩ := w.exists_forall₂_scripts hscript ls
    rw [hrun, run_of_no_script (hargs ▸ h) hscript, ← hv.eq_cutLines, hcolor,
      Settings.prompt_append hvs hls, Settings.prompt_append hvs hls,
      Settings.prompt_congr hhead.symm fun l hl => ⟨code, err, hl ▸ hcloses⟩]

def typed : World where
  arguments := ["--tokens"]
  directory := .empty
  input := [49, 32, 43, 10, 40, 50, 41, 13, 10, 255, 10, 51, 10]
  noColor := some "1"

theorem run_prompt_typed :
    Arguments.read typed.arguments = .ok ⟨none, true, false⟩ ∧
    ∃ ls rest code err, CutAfterFeeds typed.input (ls ++ rest) ∧ (∀ l ∈ ls, ¬ EndsSession l) ∧
      Closes rest.head? code err ∧
      (∃ vs, List.Forall₂ (typed.Scripts ⟨none, true, false⟩) ls vs) ∧
      (∀ vs, List.Forall₂ (typed.Scripts ⟨none, true, false⟩) ls vs →
        (run typed).exit.code = code ∧
        (run typed).report.out =
          String.join (vs.map fun v => "\x1b[m> \x1b[m" ++ (run v).report.out) ++
            "\x1b[m> \x1b[m" ∧
        (run typed).report.err = String.join (vs.map fun v => (run v).report.err) ++ err) ∧
      ∀ (v : World) (rest' : List (List UInt8)), v.arguments = typed.arguments →
        v.noColor = typed.noColor → CutAfterFeeds v.input (ls ++ rest') →
        rest'.head? = rest.head? → run v = run typed :=
  ⟨rfl, run_prompt (w := typed) rfl rfl⟩

end LoxExpr.Cli
