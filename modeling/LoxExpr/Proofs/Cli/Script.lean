import LoxExpr.Proofs.Cli.Prompt
import LoxExpr.Proofs.Reports
set_option autoImplicit false

namespace LoxExpr

theorem Parsed.isClean_iff (source : String) :
    (ofText source).isClean = true ↔ (ofText source).diagnostics.items = [] := by
  obtain ⟨expr, syntactic, haccounts, hparse⟩ := Diagnostics.exists_parse_eq source
  have hparsed : ofText source =
      ⟨expr, ⟨(Scan.ofText source).diagnostics ++ syntactic⟩⟩ := by
    rw [ofText, hparse]
    rfl
  rw [hparsed]
  exact haccounts.isSome_and_isEmpty_iff

namespace Cli

structure World.Runs (w : World) (a : Arguments) (source : String) : Prop where
  arguments_eq : Arguments.read w.arguments = .ok a
  readable : ∃ path bytes, a.script = some path ∧ w.directory.read path = .ok bytes ∧
    Encodes bytes source

/-- The sequences between which a diagnostic stands. A flag or an environment variable that is not
empty takes its color away. -/
inductive Sequences (a : Arguments) (noColor : Option String) : String → String → Prop where
  | plain : (a.noColor = true ∨ ∃ value, noColor = some value ∧ value ≠ "") →
      Sequences a noColor "\x1b[m" "\x1b[m"
  | red : a.noColor = false → (∀ value, noColor = some value → value = "") →
      Sequences a noColor "\x1b[38;5;9m" "\x1b[39m"

def listing (shown : Bool) (source : String) : String :=
  if shown then String.join ((Diagnostics.empty.scan source).1.map fun t => t.text ++ "\n") else ""

theorem World.Runs.run_eq {w : World} {a : Arguments} {source : String} (h : w.Runs a source) :
    run w = (a.settings w.noColor).runScript source := by
  obtain ⟨hargs, path, bytes, hscript, hfile, hsource⟩ := h
  rw [run, hargs]
  dsimp only
  rw [hscript]
  dsimp only
  rw [hfile, Settings.script, decodeText?_eq_some_iff.2 hsource]

theorem lines_append (xs ys : List String) : lines (xs ++ ys) = lines xs ++ lines ys := by
  rw [lines, List.map_append, String.join_append]
  rfl

theorem lines_singleton (x : String) : lines [x] = x ++ "\n" := by simp [lines]

theorem lines_eq_empty_iff {xs : List String} : lines xs = "" ↔ xs = [] := by
  cases xs with
  | nil => simp [lines]
  | cons x xs => simp [lines]

theorem sequences_settings (a : Arguments) (noColor : Option String) :
    Sequences a noColor ((a.settings noColor).style.before .red)
      (a.settings noColor).style.after := by
  by_cases hplain : a.noColor = true ∨ ∃ value, noColor = some value ∧ value ≠ ""
  · have hstyle : (a.settings noColor).style = ⟨false⟩ := by
      rcases hplain with hflag | ⟨value, rfl, hvalue⟩
      · simp [Arguments.settings, hflag]
      · simp [Arguments.settings, hvalue]
    rw [hstyle]
    exact .plain hplain
  · rw [not_or] at hplain
    have hflag : a.noColor = false := by simpa using hplain.1
    have hvalue : ∀ value, noColor = some value → value = "" := by simpa using hplain.2
    have hstyle : (a.settings noColor).style = ⟨true⟩ := by
      cases noColor with
      | none => simp [Arguments.settings, hflag]
      | some value => simp [Arguments.settings, hflag, hvalue value rfl]
    rw [hstyle]
    exact .red hflag hvalue

namespace Settings

variable {s : Settings} {source : String}

def treeLines (source : String) : List String :=
  match (Parsed.ofText source).expr with
  | some e => if (Parsed.ofText source).diagnostics.isEmpty then [e.parenthesized] else []
  | none => []

theorem runScript_out (s : Settings) (source : String) :
    (s.runScript source).report.out = listing s.tokens source ++ lines (treeLines source) := by
  have hout : (s.runScript source).report.out =
      lines ((if s.tokens then (Diagnostics.empty.scan source).1.map Token.text else []) ++
        treeLines source) := rfl
  rw [hout, lines_append, listing]
  cases s.tokens with
  | false => rfl
  | true => simp [lines, Function.comp_def]

theorem runScript_err (s : Settings) (source : String) : (s.runScript source).report.err =
    lines ((Parsed.ofText source).diagnostics.items.map fun d => s.style.paint .red d.text) := rfl

theorem runScript_exit (s : Settings) (source : String) : (s.runScript source).exit =
    if (Parsed.ofText source).diagnostics.isEmpty then .success else .data := rfl

theorem runScript_of_clean (h : (Parsed.ofText source).isClean = true) :
    ∃ e, (Parsed.ofText source).expr = some e ∧ treeLines source = [e.parenthesized] ∧
      (s.runScript source).exit = .success ∧ (s.runScript source).report.err = "" := by
  have hnone := (Parsed.isClean_iff source).1 h
  have hempty : (Parsed.ofText source).diagnostics.isEmpty = true := by
    rw [Diagnostics.isEmpty, hnone]
    rfl
  obtain ⟨e, he⟩ := Option.isSome_iff_exists.1 (Bool.and_eq_true_iff.1 h).1
  refine ⟨e, he, ?_, ?_, ?_⟩
  · simp [treeLines, he, hempty]
  · rw [runScript_exit, hempty, if_pos rfl]
  · rw [runScript_err, hnone]
    rfl

theorem runScript_of_not_clean (h : (Parsed.ofText source).isClean = false) :
    treeLines source = [] ∧ (s.runScript source).exit = .data ∧
      (s.runScript source).report.err ≠ "" := by
  have hsome : (Parsed.ofText source).diagnostics.items ≠ [] := by
    intro hnone
    rw [(Parsed.isClean_iff source).2 hnone] at h
    cases h
  have hempty : (Parsed.ofText source).diagnostics.isEmpty = false := by
    simpa [Diagnostics.isEmpty] using hsome
  refine ⟨?_, ?_, ?_⟩
  · rw [treeLines, hempty]
    split
    · rfl
    · rfl
  · rw [runScript_exit, hempty, if_neg Bool.false_ne_true]
  · rw [runScript_err, ne_eq, lines_eq_empty_iff, List.map_eq_nil_iff]
    exact hsome

end Settings

/-- A script comes to what its text does in the library: on standard output the tokens if they are
asked for and then the tree of a clean text, on standard error the diagnostics, and failure if there
is one. Nothing else of the world makes a difference. -/
theorem run_script {w : World} {a : Arguments} {source : String} (h : w.Runs a source) :
    let parsed := Parsed.ofText source
    ((parsed.isClean = true ∧ (run w).exit.code = 0 ∧ (run w).report.err = "" ∧
        ∃ e, parsed.expr = some e ∧
          (run w).report.out = listing a.tokens source ++ (e.parenthesized ++ "\n")) ∨
      (parsed.isClean = false ∧ (run w).exit.code = 65 ∧ (run w).report.err ≠ "" ∧
        (run w).report.out = listing a.tokens source)) ∧
    (∃ before after, Sequences a w.noColor before after ∧
      (run w).report.err =
        String.join (parsed.diagnostics.items.map fun d => before ++ d.text ++ after ++ "\n")) ∧
    ∀ (v : World) (b : Arguments), v.Runs b source →
      (run v).exit = (run w).exit ∧
      (a.tokens = false → (run v).report.out = listing b.tokens source ++ (run w).report.out) ∧
      (b.tokens = a.tokens → (run v).report.out = (run w).report.out) ∧
      (b.noColor = a.noColor → v.noColor = w.noColor →
        (run v).report.err = (run w).report.err) := by
  intro parsed
  rw [h.run_eq]
  refine ⟨?_, ⟨_, _, sequences_settings a w.noColor, ?_⟩, fun v b hv => ?_⟩
  · cases hclean : parsed.isClean with
    | true =>
      obtain ⟨e, he, htree, hexit, herr⟩ :=
        Settings.runScript_of_clean (s := a.settings w.noColor) hclean
      refine .inl ⟨rfl, congrArg Exit.code hexit, herr, e, he, ?_⟩
      rw [Settings.runScript_out, htree, lines_singleton]
      rfl
    | false =>
      obtain ⟨htree, hexit, herr⟩ :=
        Settings.runScript_of_not_clean (s := a.settings w.noColor) hclean
      refine .inr ⟨rfl, congrArg Exit.code hexit, herr, ?_⟩
      rw [Settings.runScript_out, htree]
      exact String.append_empty
  · rw [Settings.runScript_err, lines, List.map_map]
    rfl
  · rw [hv.run_eq]
    refine ⟨rfl, fun hquiet => ?_, fun htokens => ?_, fun hflag hvariable => ?_⟩
    · have hquiet : (a.settings w.noColor).tokens = false := hquiet
      rw [Settings.runScript_out, Settings.runScript_out, hquiet, listing.eq_def false]
      simp
      rfl
    · have htokens : (b.settings v.noColor).tokens = (a.settings w.noColor).tokens := htokens
      rw [Settings.runScript_out, Settings.runScript_out, htokens]
    · rw [Settings.runScript_err, Settings.runScript_err, Arguments.settings, Arguments.settings,
        hflag, hvariable]

def strayScript : World where
  arguments := ["--tokens", "sum.lox"]
  directory := .ofList [("sum.lox", .file [49, 32, 43, 64, 32, 50, 10])]
  input := [51, 10]
  noColor := some ""

theorem run_script_stray :
    strayScript.Runs ⟨some "sum.lox", true, false⟩ "1 +@ 2\n" ∧
      (run strayScript).exit.code = 65 ∧ (run strayScript).report.err ≠ "" ∧
      (run strayScript).report.out = listing true "1 +@ 2\n" := by
  have hruns : strayScript.Runs ⟨some "sum.lox", true, false⟩ "1 +@ 2\n" :=
    ⟨rfl, _, _, rfl, rfl, rfl⟩
  obtain ⟨⟨hclean, -⟩ | ⟨-, hexit, herr, hout⟩, -⟩ := run_script hruns
  · exact absurd hclean (by decide +kernel)
  · exact ⟨hruns, hexit, herr, hout⟩

end Cli

end LoxExpr
