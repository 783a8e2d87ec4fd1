import LoxExpr.Number
import LoxExpr.Proofs.Number.Nearest
set_option autoImplicit false

namespace LoxExpr

/-- The numeral is worth `v` halves of 10^-k. -/
def Numeral.HasHalves (x : Numeral) (k v : Nat) : Prop :=
  2 * x.digits * Nat.pow 10 k = v * Nat.pow 10 x.places

namespace Binary64

namespace Interval

theorem holds_iff {i : Interval} {v : Nat} : i.holds v = true ↔
    (i.low < v ∨ (i.closed = true ∧ i.low = v)) ∧
      (v < i.high ∨ (i.closed = true ∧ v = i.high)) := by
  rw [holds]
  split
  · next h => simp only [h, decide_eq_true_eq, true_and, Nat.le_iff_lt_or_eq]
  · next h => simp [h]

theorem onGrid?_holds {i : Interval} {n d : Nat} (h : i.onGrid? n = some d) :
    i.holds (d * (2 * Nat.pow 10 n)) = true := by
  unfold onGrid? at h
  dsimp only at h
  split at h
  · next hbelow =>
    obtain rfl := Option.some.inj h
    exact (Bool.and_eq_true_iff.1 hbelow).1
  · split at h
    · next habove =>
      obtain rfl := Option.some.inj h
      exact habove
    · cases h

theorem coarsest_holds {i : Interval} (hvalue : i.holds (i.value / 2 * 2) = true) (n : Nat) :
    i.holds ((i.coarsest n).1 * (2 * Nat.pow 10 (i.coarsest n).2)) = true := by
  induction n with
  | zero => exact hvalue
  | succ n ih =>
    rw [coarsest]
    split
    · next d hd => exact onGrid?_holds hd
    · exact ih

end Interval

theorem pow_five_pos (n : Nat) : 0 < Nat.pow 5 n := Nat.pow_pos (by decide)

theorem pow_ten (n : Nat) : Nat.pow 10 n = Nat.pow 2 n * Nat.pow 5 n := Nat.mul_pow 2 5 n

theorem pow_ten_add (m n : Nat) : Nat.pow 10 (m + n) = Nat.pow 10 m * Nat.pow 10 n :=
  Nat.pow_add 10 m n

theorem shiftLeft_eq_pow (a n : Nat) : a <<< n = a * Nat.pow 2 n := Nat.shiftLeft_eq a n

theorem interval_value (code : Nat) :
    (interval code).value = 2 * units code * Nat.pow 5 1074 := rfl

theorem interval_low {code : Nat} (h : code ≠ 0) :
    (interval code).low = tie (code - 1) * Nat.pow 5 1074 := by
  have hpred : code - 1 + 1 = code := by omega
  rw [tie, hpred]
  rfl

theorem interval_high (code : Nat) : (interval code).high = tie code * Nat.pow 5 1074 := rfl

theorem interval_closed (code : Nat) : (interval code).closed = true ↔ code % 2 = 0 := beq_iff_eq

theorem interval_holds_value {code : Nat} (h : code ≠ 0) :
    (interval code).holds ((interval code).value / 2 * 2) = true := by
  have hlow : tie (code - 1) < 2 * units code := tie_lt_of_lt (by omega)
  have hhigh : 2 * units code < tie code := by
    have hlt := units_lt_succ code
    unfold tie
    omega
  rw [Interval.holds_iff, interval_value, interval_low h, interval_high]
  generalize 1074 = k
  have hfive := pow_five_pos k
  have hhalf : 2 * units code * Nat.pow 5 k / 2 * 2 = 2 * units code * Nat.pow 5 k := by
    rw [Nat.mul_assoc, Nat.mul_div_cancel_left _ (by decide), Nat.mul_comm]
  rw [hhalf]
  exact ⟨.inl (Nat.mul_lt_mul_of_pos_right hlow hfive),
    .inl (Nat.mul_lt_mul_of_pos_right hhigh hfive)⟩

theorem beyond_iff {x : Numeral} {v : Nat} (code : Nat) (h : x.HasHalves 1074 v) :
    Beyond x.digits (Nat.pow 10 x.places) code ↔
      tie code * Nat.pow 5 1074 < v ∨ (tie code * Nat.pow 5 1074 = v ∧ code % 2 = 1) := by
  rw [Beyond, shiftLeft_eq_pow]
  unfold Numeral.HasHalves at h
  generalize 1074 = k at *
  have hfive := pow_five_pos k
  have hten : 0 < Nat.pow 10 x.places := Nat.pow_pos (by decide)
  rw [pow_ten k] at h
  generalize Nat.pow 5 k = five at *
  generalize Nat.pow 2 k = two at *
  generalize Nat.pow 10 x.places = ten at *
  have hscale : 2 * (x.digits * two) * five = v * ten := by rw [← h]; ac_rfl
  have hlt : tie code * ten < 2 * (x.digits * two) ↔ tie code * five < v := by
    rw [← Nat.mul_lt_mul_right hfive, hscale, Nat.mul_right_comm, Nat.mul_lt_mul_right hten]
  have heq : tie code * ten = 2 * (x.digits * two) ↔ tie code * five = v := by
    rw [← Nat.mul_left_inj (Nat.ne_of_gt hfive), hscale, Nat.mul_right_comm,
      Nat.mul_left_inj (Nat.ne_of_gt hten)]
  rw [hlt, heq]

/-- A decimal reads as a finite code iff it lies in the interval of the code. -/
theorem nearestCode_eq_iff_holds {x : Numeral} {v code : Nat} (hcode : code < infinityCode)
    (hzero : code ≠ 0) (h : x.HasHalves 1074 v) :
    nearestCode x.digits (Nat.pow 10 x.places) = code ↔ (interval code).holds v = true := by
  have hten : 0 < Nat.pow 10 x.places := Nat.pow_pos (by decide)
  rw [nearestCode_eq_iff hten hcode, beyond_iff _ h, beyond_iff _ h, Interval.holds_iff,
    interval_low hzero, interval_high, interval_closed]
  generalize tie (code - 1) * Nat.pow 5 1074 = low
  generalize tie code * Nat.pow 5 1074 = high
  omega

def gridPoint (k d n : Nat) : Numeral :=
  if k ≤ n then ⟨d * Nat.pow 10 (n - k), 0⟩ else ⟨d, k - n⟩

theorem shortest_eq_gridPoint {code : Nat} (h : code ≠ 0) :
    shortest code = gridPoint 1074 ((interval code).coarsest (interval code).start).1
      ((interval code).coarsest (interval code).start).2 := by
  rw [shortest, if_neg h]
  extract_lets i
  split
  · next d n hpoint => rw [hpoint, gridPoint]

theorem gridPoint_hasHalves (k d n : Nat) :
    (gridPoint k d n).HasHalves k (d * (2 * Nat.pow 10 n)) := by
  unfold Numeral.HasHalves gridPoint
  split
  · next hn =>
    have hpow : Nat.pow 10 (n - k) * Nat.pow 10 k = Nat.pow 10 n := by
      rw [← pow_ten_add, Nat.sub_add_cancel hn]
    have hone : Nat.pow 10 0 = 1 := rfl
    dsimp only
    rw [← hpow, hone, Nat.mul_one]
    ac_rfl
  · next hn =>
    have hpow : Nat.pow 10 n * Nat.pow 10 (k - n) = Nat.pow 10 k := by
      rw [← pow_ten_add, Nat.add_sub_cancel' (by omega)]
    dsimp only
    rw [← hpow]
    ac_rfl

/-- Reading the shortest decimal of a finite number gives the number. -/
theorem nearestCode_shortest {code : Nat} (h : code < infinityCode) :
    nearestCode (shortest code).digits (Nat.pow 10 (shortest code).places) = code := by
  by_cases hzero : code = 0
  · rw [hzero]
    decide +kernel
  · have hholds := Interval.coarsest_holds (interval_holds_value hzero) (interval code).start
    rw [shortest_eq_gridPoint hzero]
    exact (nearestCode_eq_iff_holds h hzero (gridPoint_hasHalves 1074 _ _)).2 hholds

theorem toBinary64_shortest {x : Binary64} (hfinite : x.isFinite = true)
    (hsign : x.negative = false) : (shortest x.magnitude.val).toBinary64 = x := by
  have hcode := nearestCode_shortest (of_decide_eq_true hfinite)
  obtain ⟨negative, magnitude⟩ := x
  simp only [Numeral.toBinary64, nearest, hcode] at *
  rw [hsign]

theorem text_of_isFinite {x : Binary64} (hfinite : x.isFinite = true)
    (hsign : x.negative = false) : x.text = (shortest x.magnitude.val).text := by
  have hcode := of_decide_eq_true hfinite
  have hnan : x.isNaN = false := decide_eq_false (by omega)
  have hinf : x.isInfinite = false := decide_eq_false (by omega)
  simp [text, hnan, hinf, hsign]

end Binary64

end LoxExpr
