import Mathlib.Algebra.Field.Rat
import Mathlib.Algebra.Order.Field.Basic
import Mathlib.Algebra.Order.Field.Power
import Mathlib.Algebra.Order.Ring.Unbundled.Rat
import Mathlib.Algebra.Ring.Parity
import Mathlib.Tactic.FieldSimp
import Mathlib.Tactic.LinearCombination
import Mathlib.Tactic.Linarith
import Mathlib.Tactic.Positivity
import Mathlib.Tactic.Ring
import LoxExpr.Proofs.Number.Nearest
set_option autoImplicit false

/-!
The nearest binary number as the arithmetic of the interchange format defines it: values are
rational numbers given by the fields of a number, a fraction goes to the value at the least
distance and, of two such, to the one with the even significand. Rounding in this sense leaves no
choice, and it is what the nearest code does.
-/

namespace LoxExpr

def Numeral.value (n : Numeral) : ℚ := n.digits / 10 ^ n.places

namespace Binary64

def exponentField (code : Nat) : Nat := code / 2 ^ 52

def fractionField (code : Nat) : Nat := code % 2 ^ 52

/-- The value of a finite magnitude: the numbers with the least exponent field have no leading
one. -/
def size (code : Nat) : ℚ :=
  if exponentField code = 0 then 2 ^ (-1022 : ℤ) * (fractionField code / 2 ^ 52)
  else 2 ^ (exponentField code - 1023 : ℤ) * (1 + fractionField code / 2 ^ 52)

def value (x : Binary64) : ℚ := if x.negative then -size x.magnitude.val else size x.magnitude.val

/-- The number without a sign that a fraction rounds to. A fraction halfway to the value after the
last finite one is too large. Below that, every other finite value lies farther from the fraction,
or just as far and its significand is not the even one. -/
structure Rounds (q : ℚ) (x : Binary64) : Prop where
  negative_eq : x.negative = false
  isNaN_eq : x.isNaN = false
  isInfinite_iff : x.isInfinite = true ↔ 2 ^ 1024 - 2 ^ 970 ≤ q
  closest : x.isFinite = true → ∀ y : Binary64, y.isFinite = true → y.value ≠ x.value →
    |x.value - q| < |y.value - q| ∨
      (|x.value - q| = |y.value - q| ∧ Even (significand x.magnitude.val))

def unit : ℚ := 2 ^ (-1074 : ℤ)

theorem unit_pos : 0 < unit := by
  unfold unit
  positivity

theorem unit_mul_two_pow (n : Nat) : unit * 2 ^ n = 2 ^ (n - 1074 : ℤ) := by
  rw [unit, ← zpow_natCast, ← zpow_add₀ two_ne_zero, add_comm]
  rfl

theorem size_eq (code : Nat) : size code = units code * unit := by
  have hbinade : binade = 2 ^ 52 := by decide
  have hlowest : (2 : ℚ) ^ (-1022 : ℤ) = unit * 2 ^ 52 := (unit_mul_two_pow 52).symm
  unfold size units significand doublings exponentField fractionField
  rw [Nat.shiftLeft_eq, hbinade, hlowest]
  by_cases hsmall : code < 2 ^ 52
  · have hexponent : code / 2 ^ 52 = 0 := Nat.div_eq_of_lt hsmall
    have hfraction : code % 2 ^ 52 = code := Nat.mod_eq_of_lt hsmall
    rw [hexponent, hfraction, if_pos rfl, if_pos hsmall]
    push_cast
    field_simp
  · have hpos : 0 < code / 2 ^ 52 := Nat.div_pos (Nat.le_of_not_lt hsmall) (by decide)
    have hpow : (2 : ℚ) ^ ((code / 2 ^ 52 : ℕ) - 1023 : ℤ) =
        unit * 2 ^ 52 * 2 ^ (code / 2 ^ 52 - 1) := by
      rw [mul_assoc, ← pow_add, unit_mul_two_pow]
      congr 1
      omega
    rw [if_neg (Nat.ne_of_gt hpos), if_neg hsmall, hpow]
    push_cast
    field_simp
    ring

theorem size_zero : size 0 = 0 := by simp [size_eq, units_zero]

theorem size_strictMono : StrictMono size := by
  refine strictMono_nat_of_lt_succ fun code => ?_
  rw [size_eq, size_eq]
  exact mul_lt_mul_of_pos_right (Nat.cast_lt.2 (units_lt_succ code)) unit_pos

theorem size_nonneg (code : Nat) : 0 ≤ size code := by
  rw [← size_zero]
  exact size_strictMono.monotone (Nat.zero_le code)

def midpoint (code : Nat) : ℚ := (size code + size (code + 1)) / 2

theorem midpoint_eq (code : Nat) : midpoint code = tie code * (unit / 2) := by
  rw [midpoint, size_eq, size_eq, tie]
  push_cast
  ring

/-- The fraction lies above the boundary after a code, or on it and goes to the next code. -/
def Past (code : Nat) (q : ℚ) : Prop := midpoint code < q ∨ (midpoint code = q ∧ code % 2 = 1)

theorem beyond_iff_past {num den : Nat} (code : Nat) (hden : 0 < den) :
    Beyond num den code ↔ Past code (num / den) := by
  have hpos : (0 : ℚ) < den := Nat.cast_pos.2 hden
  have hhalf : 0 < unit / 2 := half_pos unit_pos
  have hmidpoint : midpoint code * den = (tie code * den : ℕ) * (unit / 2) := by
    rw [midpoint_eq]
    push_cast
    ring
  have hnum : (num : ℚ) = (2 * (num <<< 1074) : ℕ) * (unit / 2) := by
    have hone : unit * 2 ^ 1074 = 1 := unit_mul_two_pow 1074
    rw [Nat.shiftLeft_eq]
    generalize 1074 = k at *
    push_cast
    linear_combination (-num : ℚ) * hone
  rw [Past, lt_div_iff₀ hpos, eq_div_iff hpos.ne', hmidpoint, hnum, mul_lt_mul_iff_left₀ hhalf,
    mul_left_inj' hhalf.ne', Nat.cast_lt, Nat.cast_inj, Beyond]

def Cell (code : Nat) (q : ℚ) : Prop := (code = 0 ∨ Past (code - 1) q) ∧ ¬ Past code q

theorem nearestCode_eq_iff_cell {num den code : Nat} (hden : 0 < den)
    (hcode : code < infinityCode) : nearestCode num den = code ↔ Cell code (num / den) := by
  rw [nearestCode_eq_iff hden hcode, beyond_iff_past _ hden, beyond_iff_past _ hden, Cell]

theorem even_significand (code : Nat) : Even (significand code) ↔ code % 2 = 0 := by
  rw [Nat.even_iff]
  unfold significand binade
  split <;> omega

theorem value_cases (y : Binary64) :
    y.value = size y.magnitude.val ∨ y.value = -size y.magnitude.val := by
  unfold value
  split
  · exact .inr rfl
  · exact .inl rfl

theorem value_of_positive {x : Binary64} (h : x.negative = false) :
    x.value = size x.magnitude.val := by
  rw [value, h, if_neg Bool.false_ne_true]

section Closest

variable {a b q : ℚ} {code other : Nat}

theorem abs_sub_lt_iff_below (h : a < b) : |a - q| < |b - q| ↔ 2 * q < a + b := by
  have hfactor : (b - q) ^ 2 - (a - q) ^ 2 = (b - a) * (a + b - 2 * q) := by ring
  rw [← sq_lt_sq, ← sub_pos, hfactor, mul_pos_iff_of_pos_left (sub_pos.2 h), sub_pos]

theorem abs_sub_lt_iff_above (h : a < b) : |b - q| < |a - q| ↔ a + b < 2 * q := by
  have hfactor : (a - q) ^ 2 - (b - q) ^ 2 = (b - a) * (2 * q - (a + b)) := by ring
  rw [← sq_lt_sq, ← sub_pos, hfactor, mul_pos_iff_of_pos_left (sub_pos.2 h), sub_pos]

/-- Two values are as far from a fraction iff it lies in their middle. -/
theorem abs_sub_eq_iff_middle (h : a < b) : |a - q| = |b - q| ↔ 2 * q = a + b := by
  rw [le_antisymm_iff, le_antisymm_iff, ← not_lt, ← not_lt, abs_sub_lt_iff_below h,
    abs_sub_lt_iff_above h, not_lt, not_lt, and_comm]

/-- A fraction that is not past a code is closer to it than to the codes above. -/
theorem closest_of_lt (h : ¬ Past code q) (hlt : code < other) :
    |size code - q| < |size other - q| ∨
      (|size code - q| = |size other - q| ∧ code % 2 = 0) := by
  have hsize : size code < size other := size_strictMono hlt
  have hnext : size (code + 1) ≤ size other := size_strictMono.monotone hlt
  have hle : q ≤ midpoint code := not_lt.1 fun hpast => h (.inl hpast)
  rw [abs_sub_lt_iff_below hsize, abs_sub_eq_iff_middle hsize]
  unfold midpoint at hle
  have hmiddle : 2 * q ≤ size code + size other := by linarith
  refine hmiddle.lt_or_eq.imp_right fun heq => ⟨heq, ?_⟩
  have hodd : ¬ code % 2 = 1 := fun hodd => h (.inr ⟨?_, hodd⟩)
  · omega
  · unfold midpoint
    linarith

theorem closest_of_past (h : Past code q) (hle : other ≤ code) :
    |size (code + 1) - q| < |size other - q| ∨
      (|size (code + 1) - q| = |size other - q| ∧ (code + 1) % 2 = 0) := by
  have hsize : size other < size (code + 1) := size_strictMono (Nat.lt_succ_of_le hle)
  have hprevious : size other ≤ size code := size_strictMono.monotone hle
  rw [abs_sub_lt_iff_above hsize, eq_comm, abs_sub_eq_iff_middle hsize]
  unfold Past midpoint at h
  rcases h with habove | ⟨heq, hodd⟩
  · exact .inl (by linarith)
  · have hmiddle : size other + size (code + 1) ≤ 2 * q := by linarith
    exact hmiddle.lt_or_eq.imp_right fun h => ⟨h.symm, by omega⟩

theorem Cell.closest (h : Cell code q) (hne : other ≠ code) :
    |size code - q| < |size other - q| ∨
      (|size code - q| = |size other - q| ∧ code % 2 = 0) := by
  obtain ⟨hlow, hhigh⟩ := h
  rcases Nat.lt_or_gt_of_ne hne with hlt | hlt
  · obtain ⟨previous, rfl⟩ : ∃ previous, code = previous + 1 := ⟨code - 1, by omega⟩
    have hpast : Past previous q := hlow.resolve_left (Nat.succ_ne_zero previous)
    exact closest_of_past hpast (Nat.le_of_lt_succ hlt)
  · exact closest_of_lt hhigh hlt

theorem Cell.abs_sub_le (h : Cell code q) (hq : 0 ≤ q) : |size code - q| ≤ q := by
  have hzero : |size 0 - q| = q := by rw [size_zero, zero_sub, abs_neg, abs_of_nonneg hq]
  by_cases hcode : (0 : Nat) = code
  · rw [← hcode, hzero]
  · rcases h.closest hcode with hlt | ⟨heq, -⟩
    · exact (hlt.trans_eq hzero).le
    · exact (heq.trans hzero).le

theorem Cell.closest_value (h : Cell code q) (hq : 0 ≤ q) {y : Binary64}
    (hne : y.value ≠ size code) :
    |size code - q| < |y.value - q| ∨ (|size code - q| = |y.value - q| ∧ code % 2 = 0) := by
  have hsame : y.value = size y.magnitude.val → _ := fun hy =>
    hy ▸ h.closest fun heq => hne (hy.trans (congrArg size heq))
  rcases y.value_cases with hy | hy
  · exact hsame hy
  rcases (size_nonneg y.magnitude.val).eq_or_lt with hzero | hpos
  · exact hsame (by rw [hy, ← hzero, neg_zero])
  · left
    calc |size code - q|
      _ ≤ q := h.abs_sub_le hq
      _ < q - y.value := by rw [hy]; linarith
      _ ≤ |y.value - q| := by rw [abs_sub_comm]; exact le_abs_self _

end Closest

theorem midpoint_last : midpoint (infinityCode - 1) = 2 ^ 1024 - 2 ^ 970 := by
  have htie : tie (infinityCode - 1) = (2 ^ 54 - 1) * 2 ^ 2045 := by decide +kernel
  have hunit : unit * 2 ^ 2045 = 2 ^ 970 * 2 := by
    rw [unit_mul_two_pow, ← pow_succ, ← zpow_natCast]
    rfl
  have hsplit : (2 : ℚ) ^ 1024 = 2 ^ 54 * 2 ^ 970 := by rw [← pow_add]
  rw [midpoint_eq, htie, hsplit]
  generalize 970 = k at *
  generalize 2045 = m at *
  push_cast
  linear_combination (2 ^ 53 - 1 / 2) * hunit

theorem midpoint_zero : midpoint 0 = 1 / 2 ^ 1075 := by
  have htie : tie 0 = 1 := by decide
  have hunit : unit * 2 ^ 1074 = 1 := unit_mul_two_pow 1074
  rw [midpoint_eq, htie, pow_succ]
  generalize 1074 = k at *
  rw [Nat.cast_one, one_mul, div_mul_eq_div_div, ← hunit]
  field_simp

theorem lt_nearestCode_iff_past {num den code : Nat} (hden : 0 < den)
    (hcode : code < infinityCode) : code < nearestCode num den ↔ Past code (num / den) := by
  rw [lt_nearestCode_iff hden hcode, beyond_iff_past code hden]

@[simp] theorem nearest_magnitude (num den : Nat) :
    (nearest num den).magnitude.val = nearestCode num den := by simp only [nearest]

@[simp] theorem nearest_negative (num den : Nat) : (nearest num den).negative = false := rfl

theorem infinityCode_pred_odd : (infinityCode - 1) % 2 = 1 := by decide

theorem nearest_isInfinite_iff (num : Nat) {den : Nat} (hden : 0 < den) :
    (nearest num den).isInfinite = true ↔ (2 ^ 1024 - 2 ^ 970 : ℚ) ≤ num / den := by
  have hlast : infinityCode - 1 < nearestCode num den ↔ _ :=
    lt_nearestCode_iff_past hden (by decide)
  have hcap := nearestCode_le num den
  rw [Past, midpoint_last, and_iff_left infinityCode_pred_odd, ← le_iff_lt_or_eq] at hlast
  rw [isInfinite, decide_eq_true_iff, nearest_magnitude, ← hlast]
  unfold infinityCode at *
  omega

theorem nearest_eq_zero_iff (num : Nat) {den : Nat} (hden : 0 < den) :
    (nearest num den).magnitude.val = 0 ↔ (num / den : ℚ) ≤ 1 / 2 ^ 1075 := by
  have hfirst : 0 < nearestCode num den ↔ _ := lt_nearestCode_iff_past hden (by decide)
  have heven : ¬ 0 % 2 = 1 := by decide
  rw [Past, midpoint_zero, or_iff_left fun h => heven h.2] at hfirst
  rw [nearest_magnitude, ← not_lt, ← hfirst, Nat.pos_iff_ne_zero, not_ne_iff]

theorem nearest_rounds (num : Nat) {den : Nat} (hden : 0 < den) :
    (nearest num den).Rounds (num / den) := by
  have hq : (0 : ℚ) ≤ num / den := by positivity
  refine ⟨nearest_negative num den, nearest_isNaN num den, nearest_isInfinite_iff num hden,
    fun hfinite y _ hne => ?_⟩
  rw [isFinite, decide_eq_true_iff, nearest_magnitude] at hfinite
  have hcell := (nearestCode_eq_iff_cell hden hfinite).1 rfl
  rw [value_of_positive (nearest_negative num den), nearest_magnitude] at hne ⊢
  rw [even_significand]
  exact hcell.closest_value hq hne

/-- Two numbers halfway from a fraction have another between them if both are even. -/
theorem Rounds.not_lt {q : ℚ} {x y : Binary64} (hx : x.Rounds q) (hy : y.Rounds q)
    (hfinite : y.isFinite = true) : ¬ x.magnitude.val < y.magnitude.val := by
  intro hlt
  have hlast : y.magnitude.val < infinityCode := of_decide_eq_true hfinite
  have hfinite' : x.isFinite = true := decide_eq_true (hlt.trans hlast)
  have hsize : x.value < y.value := by
    rw [value_of_positive hx.negative_eq, value_of_positive hy.negative_eq]
    exact size_strictMono hlt
  have hxy := hx.closest hfinite' y hfinite hsize.ne'
  have hyx := hy.closest hfinite x hfinite' hsize.ne
  have hdistance : |x.value - q| = |y.value - q| := by
    rcases hxy with hnear | ⟨heq, -⟩
    · rcases hyx with hnear' | ⟨heq, -⟩
      · exact absurd hnear' hnear.asymm
      · exact heq.symm
    · exact heq
  have hxeven := (hxy.resolve_left hdistance.not_lt).2
  have hyeven := (hyx.resolve_left hdistance.symm.not_lt).2
  rw [even_significand] at hxeven hyeven
  have hmiddle := (abs_sub_eq_iff_middle hsize).1 hdistance
  let z : Binary64 := ⟨false, ⟨x.magnitude.val + 1, Nat.lt_of_le_of_lt hlt y.magnitude.isLt⟩⟩
  have hz : z.value = size (x.magnitude.val + 1) := value_of_positive rfl
  have hxz : x.value < z.value := by
    rw [value_of_positive hx.negative_eq, hz]
    exact size_strictMono (Nat.lt_succ_self _)
  have hzy : z.value < y.value := by
    rw [hz, value_of_positive hy.negative_eq]
    exact size_strictMono (by omega)
  have hzfinite : z.isFinite = true := decide_eq_true (Nat.lt_of_le_of_lt hlt hlast)
  have hnear : |x.value - q| ≤ |z.value - q| :=
    (hx.closest hfinite' z hzfinite hxz.ne').elim le_of_lt fun h => h.1.le
  exact hnear.not_gt ((abs_sub_lt_iff_above hxz).2 (by linarith))

theorem Rounds.unique {q : ℚ} {x y : Binary64} (hx : x.Rounds q) (hy : y.Rounds q) : x = y := by
  have hmagnitude : x.magnitude = y.magnitude := by
    have hinfinite : x.isInfinite = true ↔ y.isInfinite = true :=
      hx.isInfinite_iff.trans hy.isInfinite_iff.symm
    have hxnumber := hx.isNaN_eq
    have hynumber := hy.isNaN_eq
    have hlt := hx.not_lt hy
    have hgt := hy.not_lt hx
    simp only [isInfinite, isNaN, isFinite, decide_eq_true_eq, decide_eq_false_iff_not]
      at hinfinite hxnumber hynumber hlt hgt
    omega
  obtain ⟨negative, magnitude⟩ := x
  obtain ⟨negative', magnitude'⟩ := y
  obtain rfl : magnitude = magnitude' := hmagnitude
  obtain rfl : negative = false := hx.negative_eq
  obtain rfl : negative' = false := hy.negative_eq
  rfl

end Binary64

namespace Numeral

theorem value_eq (n : Numeral) : n.value = n.digits / (Nat.pow 10 n.places : ℕ) := by
  have hpow : ((Nat.pow 10 n.places : ℕ) : ℚ) = 10 ^ n.places := Nat.cast_pow 10 n.places
  rw [value, hpow]

theorem pow_places_pos (n : Numeral) : 0 < Nat.pow 10 n.places := Nat.pow_pos (by decide)

theorem toBinary64_rounds (n : Numeral) : n.toBinary64.Rounds n.value := by
  rw [value_eq]
  exact Binary64.nearest_rounds n.digits n.pow_places_pos

theorem toBinary64_eq_zero_iff (n : Numeral) :
    n.toBinary64.magnitude.val = 0 ↔ n.value ≤ 1 / 2 ^ 1075 := by
  rw [value_eq]
  exact Binary64.nearest_eq_zero_iff n.digits n.pow_places_pos

end Numeral

end LoxExpr
