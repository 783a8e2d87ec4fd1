import LoxExpr.Parser
import LoxExpr.Proofs.Grammar.Moves
set_option autoImplicit false

/-!
How many calls are active at once. At one nesting at most seven calls wait for each other, because
each rule calls a tighter one, a level goes on without a further call, and what is not tighter is
called one nesting deeper. So the limit on nesting bounds the calls as well, however long the text
is, and a parser that has to pay for each call while it is active never runs out of a budget for so
many.
-/

namespace LoxExpr

/-- The place of a call in the order in which the rules call each other without going deeper. The
expression rule is called at the bottom of one nesting and begins the next. -/
def Phrase.place : Phrase → Nat
  | level l => l.rank + 1
  | links l _ => l.rank + 1
  | unary => 5
  | primary => 6
  | expression => 7

theorem Phrase.place_le (φ : Phrase) : φ.place ≤ 7 := by
  cases φ with
  | level l => cases l <;> decide
  | links l left => cases l <;> simp [place, Level.rank]
  | _ => decide

theorem Phrase.place_operand (l : Level) : l.operand.place = l.rank + 2 := by cases l <;> rfl

/-- A call is one place further down than its caller, or further down than all at its depth. -/
theorem Frame.place_lt (f : Frame) (d : Nat) :
    7 * d + f.caller.place < 7 * f.inside d + f.callee.place := by
  cases f with
  | first l =>
    show 7 * d + (l.rank + 1) < 7 * d + l.operand.place
    rw [Phrase.place_operand]
    omega
  | right l left op =>
    show 7 * d + (l.rank + 1) < 7 * d + l.operand.place
    rw [Phrase.place_operand]
    omega
  | expression =>
    show 7 * d + 7 < 7 * (d + 1) + 1
    omega
  | sign op =>
    show 7 * d + 5 < 7 * (d + 1) + 5
    omega
  | unary => exact Nat.lt_succ_self _
  | group => exact Nat.lt_succ_self _

theorem Frame.place_of_goOn {f : Frame} {l : Level}
    (h : f.caller = .level l ∨ ∃ left, f.caller = .links l left) :
    f.caller.place = l.rank + 1 ∧ ∀ d, f.inside d = d := by
  have hnested : f.isNested = false := by
    cases f with
    | expression => simp [caller] at h
    | sign op => simp [caller] at h
    | _ => rfl
  refine ⟨?_, fun d => by simp [inside, hnested]⟩
  rcases h with h | ⟨left, h⟩
  · rw [h, Phrase.place]
  · rw [h, Phrase.place]

/-- Calls that wait for each other, of which the last one waits for a call at depth `d`: each began
with no more calls around it than its depth and its place allow. -/
inductive Stacked : List Frame → Nat → Prop where
  | nil : Stacked [] 0
  | cons {f : Frame} {k : List Frame} {d d' : Nat} : d' = f.inside d →
      k.length + 7 ≤ 7 * d + f.caller.place → (f.isNested = true → d < maxNesting) →
      Stacked k d → Stacked (f :: k) d'

theorem Stacked.depth_le {k : List Frame} {d : Nat} (h : Stacked k d) : d ≤ maxNesting := by
  induction h with
  | nil => exact Nat.zero_le _
  | @cons f k d d' hd _ hlimit _ ih =>
    rw [hd, Frame.inside]
    split
    · next hf => exact hlimit hf
    · exact ih

theorem Stacked.length_le {k : List Frame} {d : Nat} (h : Stacked k d) :
    k.length ≤ 7 * maxNesting + 1 := by
  cases h with
  | nil => exact Nat.zero_le _
  | @cons f k d d' _ hle _ hk =>
    have hdepth := hk.depth_le
    have hplace := f.caller.place_le
    rw [List.length_cons]
    omega

namespace Counted

def active (c : Counted) : Nat :=
  c.descent.frames.length + match c.descent.task with
    | .call _ => 1
    | .answer _ => 0

structure Fits (c : Counted) : Prop where
  stacked : Stacked c.descent.frames c.depth
  length_le : ∀ φ, c.descent.task = .call φ →
    c.descent.frames.length + 7 ≤ 7 * c.depth + φ.place

theorem fits_start (ts : List Token) : Fits ⟨.start ts, 0⟩ := by
  refine ⟨.nil, fun φ hφ => ?_⟩
  obtain rfl : Phrase.expression = φ := by cases hφ; rfl
  exact Nat.le_refl 7

theorem Moves.fits {c c' : Counted} (h : Moves c c') (hc : c.Fits) : c'.Fits := by
  cases h with
  | @call f k ts us d hlimit _ =>
    have hle : k.length + 7 ≤ 7 * d + f.caller.place := hc.length_le f.caller rfl
    have hplace := f.place_lt d
    refine ⟨.cons rfl hle hlimit hc.stacked, fun φ hφ => ?_⟩
    obtain rfl : f.callee = φ := by cases hφ; rfl
    show k.length + 1 + 7 ≤ 7 * f.inside d + f.callee.place
    omega
  | finish _ => exact ⟨hc.stacked, fun φ hφ => by cases hφ⟩
  | @resume f k ts us d r r' _ =>
    have hstacked : Stacked (f :: k) d := hc.stacked
    cases hstacked with
    | cons hd _ _ hk =>
      refine ⟨?_, fun φ hφ => by cases hφ⟩
      show Stacked k (f.outside d)
      rwa [hd, f.outside_inside]
  | @goOn f k ts d r l e hf =>
    have hstacked : Stacked (f :: k) d := hc.stacked
    cases hstacked with
    | cons hd hle _ hk =>
      -- The level that goes on is the one that waits, and it began at this depth.
      obtain ⟨hplace, hinside⟩ := Frame.place_of_goOn hf
      rw [hinside] at hd
      subst hd
      refine ⟨hk, fun φ hφ => ?_⟩
      obtain rfl : Phrase.links l e = φ := by cases hφ; rfl
      rwa [hplace] at hle

theorem Reaches.fits {c c' : Counted} (h : Reaches c c') (hc : c.Fits) : c'.Fits := by
  induction h with
  | refl => exact hc
  | tail _ hstep ih => exact (moves_of_step hstep).fits ih

theorem Fits.active_le {c : Counted} (h : c.Fits) : c.active ≤ 7 * maxNesting + 1 := by
  obtain ⟨⟨task, k, ts⟩, d⟩ := c
  cases task with
  | answer r => exact h.stacked.length_le
  | call φ =>
    have hdepth : d ≤ maxNesting := h.stacked.depth_le
    have hlength : k.length + 7 ≤ 7 * d + φ.place := h.length_le φ rfl
    have hplace := φ.place_le
    show k.length + 1 ≤ 7 * maxNesting + 1
    omega

/-- One nesting can hold seven active calls: a group begins within a call of each of the rules. -/
theorem reaches_opening {t : Token} (ht : t.role = .opening) (k : List Frame) (ts : List Token)
    {d : Nat} (hd : d < maxNesting) : ∃ k', k'.length = k.length + 7 ∧
      Reaches ⟨⟨.call .expression, k, t :: ts⟩, d⟩ ⟨⟨.call .expression, k', ts⟩, d + 1⟩ := by
  let k' := .group :: .unary :: .first .factor :: .first .term :: .first .comparison ::
    .first .equality :: .expression :: k
  have hunary : t.role ≠ .sign := by simp [ht]
  refine ⟨k', rfl, .head rfl ?_⟩
  rw [nested_below hd]
  refine .head rfl (.head rfl (.head rfl (.head rfl (.head (step_unary _ ts _ hunary) ?_))))
  refine .single ?_
  rw [step_primary, Descent.callPrimary, ht]

theorem reaches_openings {t : Token} (ht : t.role = .opening) (ts : List Token) {n d : Nat}
    (k : List Frame) (hd : d + n ≤ maxNesting) : ∃ k', k'.length = k.length + 7 * n ∧
      Reaches ⟨⟨.call .expression, k, List.replicate n t ++ ts⟩, d⟩
        ⟨⟨.call .expression, k', ts⟩, d + n⟩ := by
  induction n generalizing k d with
  | zero => exact ⟨k, rfl, .refl⟩
  | succ n ih =>
    obtain ⟨k₁, hk₁, hfirst⟩ :=
      reaches_opening ht k (List.replicate n t ++ ts) (d := d) (by omega)
    obtain ⟨k₂, hk₂, hrest⟩ := ih (d := d + 1) k₁ (by omega)
    refine ⟨k₂, by omega, ?_⟩
    rw [List.replicate_succ, List.cons_append, Nat.add_comm n 1, ← Nat.add_assoc]
    exact hfirst.trans hrest

/-- The bound is reached, whatever follows the groups. -/
theorem exists_active_eq {t : Token} (ht : t.role = .opening) (ts : List Token) :
    ∃ c, Reaches ⟨.start (List.replicate maxNesting t ++ ts), 0⟩ c ∧
      c.active = 7 * maxNesting + 1 := by
  obtain ⟨k, hk, hreach⟩ := reaches_openings ht ts (d := 0) [] (Nat.le_of_eq (Nat.zero_add _))
  refine ⟨_, hreach, ?_⟩
  show k.length + 1 = 7 * maxNesting + 1
  rw [hk, List.length_nil, Nat.zero_add]

end Counted

/-- The descent that pays for its calls. Each takes a unit of a budget when it begins and gives it
back when it ends, and where nothing is left for a call everything is given up. -/
inductive Metered where
  | running (counted : Counted) (left : Nat)
  | gaveUp

namespace Metered

def begin (c : Counted) : Nat → Metered
  | 0 => .gaveUp
  | left + 1 => .running c left

def start (ts : List Token) (budget : Nat) : Metered := begin ⟨.start ts, 0⟩ budget

def pay (c c' : Counted) (left : Nat) : Metered :=
  match c.descent.task, c'.descent.task with
  | .call _, .call _ => begin c' left
  | .call _, .answer _ => .running c' (left + 1)
  | .answer _, .call _ => .running c' left
  | .answer _, .answer _ => .running c' (left + 1)

def step : Metered → Option Metered
  | .running c left => c.step.map (pay c · left)
  | .gaveUp => none

def Reaches : Metered → Metered → Prop := Relation.ReflTransGen fun m m' => m.step = some m'

/-- What is left is what the active calls have not taken. -/
theorem pay_of_moves {c c' : Counted} {left budget : Nat} (h : Counted.Moves c c')
    (hleft : c.active + left = budget) (hle : c'.active ≤ budget) :
    ∃ left', pay c c' left = .running c' left' ∧ c'.active + left' = budget := by
  cases h with
  | @call f k ts us d _ _ =>
    have hbefore : k.length + 1 + left = budget := hleft
    have hafter : k.length + 1 + 1 ≤ budget := hle
    cases left with
    | zero => omega
    | succ left =>
      refine ⟨left, rfl, ?_⟩
      show k.length + 1 + 1 + left = budget
      omega
  | @finish φ k ts us d r _ =>
    have hbefore : k.length + 1 + left = budget := hleft
    refine ⟨left + 1, rfl, ?_⟩
    show k.length + 0 + (left + 1) = budget
    omega
  | @resume f k ts us d r r' _ =>
    have hbefore : k.length + 1 + 0 + left = budget := hleft
    refine ⟨left + 1, rfl, ?_⟩
    show k.length + 0 + (left + 1) = budget
    omega
  | @goOn f k ts d r l e _ =>
    have hbefore : k.length + 1 + 0 + left = budget := hleft
    refine ⟨left, rfl, ?_⟩
    show k.length + 1 + left = budget
    omega

/-- With budget enough for the calls that can be active, every state of the descent is reached, with
what its active calls leave. -/
theorem reaches_running {ts : List Token} {c : Counted} (h : Counted.Reaches ⟨.start ts, 0⟩ c) :
    ∃ left, c.active + left = 7 * maxNesting + 1 ∧
      Reaches (start ts (7 * maxNesting + 1)) (.running c left) := by
  induction h with
  | refl => exact ⟨7 * maxNesting, Nat.add_comm _ _, .refl⟩
  | @tail c c' hreach hstep ih =>
    obtain ⟨left, hleft, hruns⟩ := ih
    have hmoves := Counted.moves_of_step hstep
    have hle := (hmoves.fits (Counted.Reaches.fits hreach (Counted.fits_start ts))).active_le
    obtain ⟨left', hpay, hleft'⟩ := pay_of_moves hmoves hleft hle
    refine ⟨left', hleft', hruns.tail ?_⟩
    rw [step, hstep, Option.map_some, hpay]

end Metered

/-- At no time in reading an expression are more calls active than the limit on nesting allows. With
a budget for so many nothing is ever given up: reading comes to the same result and leaves the
cursor at the same place, and the budget is whole again. -/
theorem Parser.parseExpression_within_budget (p : Parser) :
    (∀ c, Counted.Reaches ⟨.start p.ahead, 0⟩ c → c.active ≤ 7 * maxNesting + 1) ∧
      ∃ o : Outcome, p.parseExpression = (o.result, p.moveTo o.rest) ∧
        ∀ m, Metered.Reaches (.start p.ahead (7 * maxNesting + 1)) m →
          m ≠ .gaveUp ∧ Metered.Reaches m (.running ⟨.finish o, 0⟩ (7 * maxNesting + 1)) := by
  have hfits {c : Counted} (h : Counted.Reaches ⟨.start p.ahead, 0⟩ c) : c.Fits :=
    h.fits (Counted.fits_start p.ahead)
  refine ⟨fun c h => (hfits h).active_le, (Rule.expression maxNesting).run p.ahead, rfl, ?_⟩
  intro m hm
  have hcounts := Counted.counts_expression (Nat.zero_add maxNesting) [] p.ahead
  obtain ⟨left, hleft, hend⟩ := Metered.reaches_running hcounts
  obtain rfl : left = 7 * maxNesting + 1 := by
    have h : 0 + 0 + left = 7 * maxNesting + 1 := hleft
    omega
  have hpath : Metered.Reaches m
      (.running ⟨.finish ((Rule.expression maxNesting).run p.ahead), 0⟩ (7 * maxNesting + 1)) :=
    reaches_end (fun _ _ _ h₁ h₂ => Option.some.inj (h₁.symm.trans h₂)) hm hend
      (fun _ h => by cases h)
  refine ⟨?_, hpath⟩
  rintro rfl
  rcases hpath.cases_head with heq | ⟨m', hstep, -⟩
  · cases heq
  · cases hstep

end LoxExpr
