import LoxExpr.Proofs.Grammar.Moves
import LoxExpr.Proofs.Parser.Memory
set_option autoImplicit false

/-!
The calls of a session step by step. From one moment of a call to the next the cursor stays where it
is or advances; nothing else moves it. There is one path from the first call to the last, and at
its end stand the answers and the session to which the calls come.
-/

namespace LoxExpr

inductive Activity where
  | between
  | reading (task : Task) (frames : List Frame) (depth : Nat)
  | skipping

/-- A session in the middle of its calls: the calls that are not finished, of which the first one
may have begun, and the answers of those that are. -/
structure Moment where
  session : Session
  activity : Activity
  unfinished : List Command
  answers : List Answer

namespace Session

def advance (s : Session) : Session := { s with parser := s.parser.advance }

def work (s : Session) (task : Task) (frames : List Frame) (depth : Nat) : Counted :=
  ⟨⟨task, frames, s.parser.ahead⟩, depth⟩

end Session

namespace Moment

def start (s : Session) (cs : List Command) : Moment := ⟨s, .between, cs, []⟩

inductive Step : Moment → Moment → Prop where
  | read {s : Session} {c : Command} {cs : List Command} {as : List Answer} :
      c = .parse ∨ c = .parseExpression →
      Step ⟨s, .between, c :: cs, as⟩ ⟨s, .reading (.call .expression) [] 0, c :: cs, as⟩
  | look {s : Session} {x x' : Task} {k k' : List Frame} {d d' : Nat} {cs : List Command}
      {as : List Answer} : (s.work x k d).step = some (s.work x' k' d') →
      Step ⟨s, .reading x k d, cs, as⟩ ⟨s, .reading x' k' d', cs, as⟩
  | take {s : Session} {x x' : Task} {k k' : List Frame} {d d' : Nat} {cs : List Command}
      {as : List Answer} : (s.work x k d).step = some (s.advance.work x' k' d') →
      Step ⟨s, .reading x k d, cs, as⟩ ⟨s.advance, .reading x' k' d', cs, as⟩
  | parsed {s : Session} {e : Expr} {d : Nat} {cs : List Command} {as : List Answer} :
      Step ⟨s, .reading (.answer (.ok e)) [] d, .parse :: cs, as⟩
        ⟨s, .between, cs, as ++ [.tree (some e)]⟩
  | reported {s : Session} {e : SyntaxError} {d : Nat} {cs : List Command} {as : List Answer} :
      Step ⟨s, .reading (.answer (.error e)) [] d, .parse :: cs, as⟩
        ⟨⟨s.parser, s.diagnostics.report e.diagnostic⟩, .between, cs, as ++ [.tree none]⟩
  | answered {s : Session} {r : Except SyntaxError Expr} {d : Nat} {cs : List Command}
      {as : List Answer} : Step ⟨s, .reading (.answer r) [] d, .parseExpression :: cs, as⟩
        ⟨s, .between, cs, as ++ [.outcome r]⟩
  | leave {s : Session} {cs : List Command} {as : List Answer} :
      Step ⟨s, .between, .synchronize :: cs, as⟩ ⟨s.advance, .skipping, .synchronize :: cs, as⟩
  | skip {s : Session} {cs : List Command} {as : List Answer} : ¬ s.parser.AtBoundary →
      Step ⟨s, .skipping, cs, as⟩ ⟨s.advance, .skipping, cs, as⟩
  | stop {s : Session} {c : Command} {cs : List Command} {as : List Answer} :
      s.parser.AtBoundary →
      Step ⟨s, .skipping, c :: cs, as⟩ ⟨s, .between, cs, as ++ [.synchronized]⟩
  | ask {s : Session} {cs : List Command} {as : List Answer} :
      Step ⟨s, .between, .isAtEnd :: cs, as⟩
        ⟨s, .between, cs, as ++ [.atEnd s.parser.isAtEnd]⟩

def Reaches : Moment → Moment → Prop := Relation.ReflTransGen Step

theorem Step.parser_eq {m m' : Moment} (h : Step m m') :
    m'.session.parser = m.session.parser ∨ m'.session.parser = m.session.parser.advance := by
  cases h with
  | take _ => exact .inr rfl
  | leave => exact .inr rfl
  | skip _ => exact .inr rfl
  | _ => exact .inl rfl

/-- What a step of the descent passes over is passed over by the cursor. -/
theorem step_of_work {s : Session} {x x' : Task} {k k' : List Frame} {d d' : Nat} {us : List Token}
    (cs : List Command) (as : List Answer) (h : (s.work x k d).step = some ⟨⟨x', k', us⟩, d'⟩) :
    ∃ s' : Session, s'.parser.ahead = us ∧ s'.parser.tokens = s.parser.tokens ∧
      s'.diagnostics = s.diagnostics ∧
      Step ⟨s, .reading x k d, cs, as⟩ ⟨s', .reading x' k' d', cs, as⟩ := by
  have hpasses : Passes s.parser.ahead us := (Counted.moves_of_step h).passes
  generalize hahead : s.parser.ahead = ts at hpasses
  cases hpasses with
  | none => exact ⟨s, hahead, rfl, rfl, .look (by rw [h, ← hahead]; rfl)⟩
  | @one t _ ht =>
    have htoken : t.isEof = false := by simpa [Token.isEof] using ht
    have hadvance := Parser.advance_of_ahead hahead htoken
    have hrest : s.advance.parser.ahead = us := by
      rw [Session.advance, hadvance]
      exact Parser.ahead_succ hahead
    refine ⟨s.advance, hrest, ?_, rfl, .take ?_⟩
    · rw [Session.advance, hadvance]
    · rw [h, Session.work, hrest]

theorem reaches_of_work {s : Session} {x : Task} {k : List Frame} {d : Nat} {c : Counted}
    (cs : List Command) (as : List Answer) (h : Counted.Reaches (s.work x k d) c) :
    ∃ s' : Session, s'.parser.ahead = c.descent.ahead ∧ s'.parser.tokens = s.parser.tokens ∧
      s'.diagnostics = s.diagnostics ∧ Reaches ⟨s, .reading x k d, cs, as⟩
        ⟨s', .reading c.descent.task c.descent.frames c.depth, cs, as⟩ := by
  induction h with
  | refl => exact ⟨s, rfl, rfl, rfl, .refl⟩
  | @tail b c _ hstep ih =>
    obtain ⟨s₁, hahead, htokens, hdiagnostics, hreaches⟩ := ih
    have hwork : b = s₁.work b.descent.task b.descent.frames b.depth := by
      rw [Session.work, hahead]
    rw [hwork] at hstep
    obtain ⟨s₂, hahead', htokens', hdiagnostics', hlast⟩ := step_of_work cs as hstep
    exact ⟨s₂, hahead', htokens'.trans htokens, hdiagnostics'.trans hdiagnostics,
      hreaches.tail hlast⟩

theorem reaches_outcome {s : Session} (hs : Ended s.parser.ahead) (cs : List Command)
    (as : List Answer) : let o := (Rule.expression maxNesting).run s.parser.ahead
    Reaches ⟨s, .reading (.call .expression) [] 0, cs, as⟩
      ⟨⟨s.parser.moveTo o.rest, s.diagnostics⟩, .reading (.answer o.result) [] 0, cs, as⟩ := by
  intro o
  have hcounts : Counted.Reaches (s.work (.call .expression) [] 0) (Counted.answered o [] 0) :=
    Counted.counts_expression (Nat.zero_add maxNesting) [] s.parser.ahead
  obtain ⟨⟨p, ds⟩, hahead, htokens, hdiagnostics, hreaches⟩ := reaches_of_work cs as hcounts
  obtain ⟨t, hlast, -⟩ := (Rule.leaves_expression maxNesting s.parser.ahead).ended hs
  have hrest : p.ahead = o.rest := hahead
  have hp : p = s.parser.moveTo o.rest := by
    have hlength : 0 < p.ahead.length := by
      rw [hrest]
      exact List.length_pos_of_mem (List.mem_of_getLast? hlast)
    rw [Parser.ahead, List.length_drop] at hlength
    have hmove := Parser.moveTo_ahead (p := p) (by omega)
    rw [hrest] at hmove
    have htokens : p.tokens = s.parser.tokens := htokens
    rw [← hmove, Parser.moveTo, Parser.moveTo, htokens]
  have hds : ds = s.diagnostics := hdiagnostics
  rw [hp, hds] at hreaches
  exact hreaches

theorem reaches_skips {p q : Parser} (h : p.Skips q) (ds : Diagnostics) (c : Command)
    (cs : List Command) (as : List Answer) :
    Reaches ⟨⟨p, ds⟩, .skipping, c :: cs, as⟩ ⟨⟨q, ds⟩, .between, cs, as ++ [.synchronized]⟩ := by
  induction h with
  | stop hp => exact .single (.stop hp)
  | next hnot _ ih => exact .head (.skip hnot) ih

theorem reaches_step {s : Session} (hs : Ended s.parser.ahead) (c : Command) (cs : List Command)
    (as : List Answer) : Reaches ⟨s, .between, c :: cs, as⟩
      ⟨(s.step c).2, .between, cs, as ++ [(s.step c).1]⟩ := by
  cases c with
  | parse =>
    refine .head (.read (.inl rfl)) ((reaches_outcome hs _ as).trans (.single ?_))
    rw [Session.step]
    cases hresult : ((Rule.expression maxNesting).run s.parser.ahead).result with
    | ok e => rw [Parser.parse_of_ok _ hresult]; exact .parsed
    | error e => rw [Parser.parse_of_error _ hresult]; exact .reported
  | parseExpression =>
    exact .head (.read (.inr rfl)) ((reaches_outcome hs _ as).trans (.single .answered))
  | synchronize =>
    have hpos : s.parser.position ≤ s.parser.tokens.length := by
      obtain ⟨t, hlast, -⟩ := hs
      have hlength := List.length_pos_of_mem (List.mem_of_getLast? hlast)
      rw [Parser.ahead, List.length_drop] at hlength
      omega
    exact .head .leave (reaches_skips (Parser.skips_advance hpos) s.diagnostics _ cs as)
  | isAtEnd => exact .single .ask

theorem reaches_run {ts : List Token} {s : Session} (h : s.Within ts) (cs : List Command)
    (as : List Answer) : Reaches ⟨s, .between, cs, as⟩
      ⟨s.after cs, .between, [], as ++ (s.run cs).map Prod.fst⟩ := by
  induction cs generalizing s as with
  | nil => rw [Session.run, List.map_nil, List.append_nil]; exact .refl
  | cons c cs ih =>
    have hrest := ih (h.step c) (as ++ [(s.step c).1])
    rw [List.append_assoc] at hrest
    exact (reaches_step h.ended c cs as).trans hrest

theorem advance_eq_self {s : Session} (h : s.advance.parser.ahead = s.parser.ahead) :
    s.advance = s := by
  cases hend : s.parser.isAtEnd with
  | true => rw [Session.advance, Parser.advance, if_pos hend]
  | false =>
    cases hahead : s.parser.ahead with
    | nil => rw [Parser.isAtEnd, hahead] at hend; cases hend
    | cons t ts =>
      rw [Parser.isAtEnd_of_ahead hahead] at hend
      rw [Session.advance, Parser.advance_of_ahead hahead hend, Parser.ahead_succ hahead,
        hahead] at h
      exact absurd h.symm (List.cons_ne_self t ts)

/-- A session goes on in one way only. -/
theorem Step.unique {m m₁ m₂ : Moment} (h₁ : Step m m₁) (h₂ : Step m m₂) : m₁ = m₂ := by
  -- Where the cursor could stay or advance for the same step of the descent, it cannot advance.
  have hlook {s : Session} {x x' x'' : Task} {k k' k'' : List Frame} {d d' d'' : Nat}
      (h : (s.work x k d).step = some (s.work x' k' d'))
      (h' : (s.work x k d).step = some (s.advance.work x'' k'' d'')) :
      s.advance = s ∧ x' = x'' ∧ k' = k'' ∧ d' = d'' := by
    have hsame := Option.some.inj (h.symm.trans h')
    simp only [Session.work, Counted.mk.injEq, Descent.mk.injEq] at hsame
    exact ⟨advance_eq_self hsame.1.2.2.symm, hsame.1.1, hsame.1.2.1, hsame.2⟩
  cases h₁ with
  | read hc =>
    cases h₂ with
    | read _ => rfl
    | leave => simp at hc
    | ask => simp at hc
  | look h =>
    cases h₂ with
    | look h' => cases h.symm.trans h'; rfl
    | take h' =>
      obtain ⟨hs, rfl, rfl, rfl⟩ := hlook h h'
      rw [hs]
    | parsed => cases h
    | reported => cases h
    | answered => cases h
  | take h =>
    cases h₂ with
    | look h' =>
      obtain ⟨hs, rfl, rfl, rfl⟩ := hlook h' h
      rw [hs]
    | take h' => cases h.symm.trans h'; rfl
    | parsed => cases h
    | reported => cases h
    | answered => cases h
  | parsed =>
    cases h₂ with
    | look h => cases h
    | take h => cases h
    | parsed => rfl
  | reported =>
    cases h₂ with
    | look h => cases h
    | take h => cases h
    | reported => rfl
  | answered =>
    cases h₂ with
    | look h => cases h
    | take h => cases h
    | answered => rfl
  | leave =>
    cases h₂ with
    | read hc => simp at hc
    | leave => rfl
  | skip h =>
    cases h₂ with
    | skip _ => rfl
    | stop h' => exact absurd h' h
  | stop h =>
    cases h₂ with
    | skip h' => exact absurd h h'
    | stop _ => rfl
  | ask =>
    cases h₂ with
    | read hc => simp at hc
    | ask => rfl

/-- Every moment of the calls lies on the path to their end. -/
theorem Reaches.on_path {ts : List Token} {s : Session} {cs : List Command} {m : Moment}
    (hs : s.Within ts) (h : Reaches (start s cs) m) :
    Reaches m ⟨s.after cs, .between, [], (s.run cs).map Prod.fst⟩ := by
  have hend : Reaches (start s cs) ⟨s.after cs, .between, [], (s.run cs).map Prod.fst⟩ :=
    reaches_run hs cs []
  exact reaches_end (fun _ _ _ h₁ h₂ => h₁.unique h₂) h hend (fun _ h => by cases h)

end Moment

end LoxExpr
