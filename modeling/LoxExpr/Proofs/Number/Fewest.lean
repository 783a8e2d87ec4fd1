import LoxExpr.Proofs.Number.Rounding
import LoxExpr.Proofs.Number.Shortest
set_option autoImplicit false

/-!
No decimal that reads back to a number has fewer digits than the shortest one. The search for a
coarse grid misses no grid that has a point in the interval of the number, and a decimal with fewer
digits would put a power of ten on such a grid.
-/

namespace LoxExpr.Binary64

namespace Interval

variable {i : Interval} {n : Nat}

theorem holds_of_between {a b c : Nat} (ha : i.holds a = true) (hb : i.holds b = true)
    (hac : a ≤ c) (hcb : c ≤ b) : i.holds c = true := by
  rw [holds_iff] at ha hb ⊢
  cases hclosed : i.closed with
  | true =>
    simp only [hclosed, true_and] at *
    omega
  | false =>
    simp only [hclosed, Bool.false_eq_true, false_and, or_false] at *
    omega

/-- If a point of a grid lies in the interval, so does a neighbour of the value there. -/
theorem not_holds_of_onGrid? (hvalue : i.holds i.value = true) (h : i.onGrid? n = none) (p : Nat) :
    ¬ i.holds (p * (2 * Nat.pow 10 n)) = true := by
  intro hp
  have hstep : 0 < 2 * Nat.pow 10 n := Nat.mul_pos (by decide) (Nat.pow_pos (by decide))
  unfold onGrid? at h
  dsimp only at h
  generalize 2 * Nat.pow 10 n = step at *
  have hbelow : i.value / step * step ≤ i.value := Nat.div_mul_le_self _ _
  have habove : i.value ≤ (i.value / step + 1) * step := by
    rw [Nat.mul_comm]
    exact Nat.le_of_lt (Nat.lt_mul_div_succ _ hstep)
  have hneither : i.holds (i.value / step * step) = false ∧
      i.holds ((i.value / step + 1) * step) = false := by
    split at h
    · cases h
    · next hlower =>
      split at h
      · cases h
      · next hupper => simpa [hupper] using hlower
  rcases Nat.lt_or_ge (i.value / step) p with hlt | hle
  · have hupper := holds_of_between hvalue hp habove (Nat.mul_le_mul_right step hlt)
    rw [hneither.2] at hupper
    cases hupper
  · have hlower := holds_of_between hp hvalue (Nat.mul_le_mul_right step hle) hbelow
    rw [hneither.1] at hlower
    cases hlower

theorem onGrid?_of_coarsest {m : Nat} (hm : (i.coarsest n).2 < m) (hn : m ≤ n) :
    i.onGrid? m = none := by
  induction n with
  | zero => omega
  | succ n ih =>
    rw [coarsest] at hm
    split at hm
    · next d hd => exact absurd hm (by omega)
    · next hnone =>
      rcases Nat.lt_or_eq_of_le hn with hlt | rfl
      · exact ih hm (Nat.le_of_lt_succ hlt)
      · exact hnone

theorem two_pow_le_ten_pow {l m : Nat} (h : 28 * l ≤ 93 * m) : 2 ^ l ≤ 10 ^ m := by
  have hpow : (2 ^ l) ^ 28 ≤ (10 ^ m) ^ 28 :=
    calc (2 ^ l) ^ 28
      _ = 2 ^ (28 * l) := by rw [← Nat.pow_mul, Nat.mul_comm]
      _ ≤ 2 ^ (93 * m) := Nat.pow_le_pow_right (by decide) h
      _ = (2 ^ 93) ^ m := Nat.pow_mul 2 93 m
      _ ≤ (10 ^ 28) ^ m := Nat.pow_le_pow_left (by decide) m
      _ = (10 ^ m) ^ 28 := by rw [← Nat.pow_mul, ← Nat.pow_mul, Nat.mul_comm]
  exact (Nat.pow_le_pow_iff_left (by decide)).1 hpow

/-- From the first grid tried on, the first point is above the interval. -/
theorem high_lt_of_start {m : Nat} (hm : i.start ≤ m + 1) : i.high < 2 * Nat.pow 10 m := by
  have hlog : 2 ^ i.high.log2 ≤ 10 ^ m := two_pow_le_ten_pow (by unfold start at hm; omega)
  calc i.high
    _ < 2 ^ (i.high.log2 + 1) := Nat.lt_log2_self
    _ = 2 * 2 ^ i.high.log2 := Nat.pow_succ'
    _ ≤ 2 * 10 ^ m := Nat.mul_le_mul_left 2 hlog

/-- No point of a grid coarser than the one found lies in the interval. -/
theorem not_holds_of_coarser (hvalue : i.holds i.value = true) (hlow : 0 < i.low) {m : Nat}
    (hm : (i.coarsest i.start).2 < m) (p : Nat) : ¬ i.holds (p * (2 * Nat.pow 10 m)) = true := by
  rcases Nat.lt_or_ge i.start m with hlt | hle
  · intro hp
    have hhigh : i.high < 2 * Nat.pow 10 m := high_lt_of_start (by omega)
    rw [holds_iff] at hp
    cases p with
    | zero => omega
    | succ p =>
      have hfirst : 2 * Nat.pow 10 m ≤ (p + 1) * (2 * Nat.pow 10 m) :=
        Nat.le_mul_of_pos_left _ (Nat.succ_pos p)
      omega
  · exact not_holds_of_onGrid? hvalue (onGrid?_of_coarsest hm hle) p

end Interval

theorem interval_holds_self {code : Nat} (h : code ≠ 0) :
    (interval code).holds (interval code).value = true := by
  have heven : (interval code).value / 2 * 2 = (interval code).value := by
    rw [interval_value, Nat.mul_assoc, Nat.mul_div_cancel_left _ (by decide), Nat.mul_comm]
  rw [← heven]
  exact interval_holds_value h

theorem interval_low_pos {code : Nat} (h : code ≠ 0) : 0 < (interval code).low := by
  have htie : 0 < tie (code - 1) :=
    Nat.lt_of_le_of_lt (Nat.zero_le _) (Nat.lt_add_left _ (units_lt_succ _))
  rw [interval_low h]
  generalize 1074 = k
  exact Nat.mul_pos htie (pow_five_pos k)

theorem gridPoint_value (k p n : Nat) : (gridPoint k p n).value = p * 10 ^ (n - k : ℤ) := by
  unfold gridPoint
  split
  · next hle =>
    have hexp : (n - k : ℤ) = (n - k : ℕ) := by omega
    rw [hexp, zpow_natCast, Numeral.value]
    simp
  · next hlt =>
    have hexp : (n - k : ℤ) = -(k - n : ℕ) := by omega
    rw [hexp, zpow_neg, zpow_natCast, Numeral.value, div_eq_mul_inv]

def found (code : Nat) : Nat × Nat := (interval code).coarsest (interval code).start

theorem shortest_eq_found {code : Nat} (h : code ≠ 0) :
    shortest code = gridPoint 1074 (found code).1 (found code).2 := shortest_eq_gridPoint h

section Found

variable {code : Nat} (hcode : code < infinityCode) (hzero : code ≠ 0)
include hcode hzero

/-- A point of a grid lies in the interval of a code iff it reads as the code. -/
theorem holds_iff_cell (p n : Nat) : (interval code).holds (p * (2 * Nat.pow 10 n)) = true ↔
    Cell code (p * 10 ^ (n - 1074 : ℤ)) := by
  rw [← nearestCode_eq_iff_holds hcode hzero (gridPoint_hasHalves 1074 p n),
    nearestCode_eq_iff_cell (Numeral.pow_places_pos _) hcode, ← Numeral.value_eq, gridPoint_value]
  rfl

theorem cell_found : Cell code ((found code).1 * 10 ^ ((found code).2 - 1074 : ℤ)) := by
  rw [← holds_iff_cell hcode hzero]
  exact Interval.coarsest_holds (interval_holds_value hzero) _

theorem not_cell_of_coarser {n : Nat} (hn : (found code).2 < n) (p : Nat) :
    ¬ Cell code (p * 10 ^ (n - 1074 : ℤ)) := by
  rw [← holds_iff_cell hcode hzero]
  exact Interval.not_holds_of_coarser (interval_holds_self hzero) (interval_low_pos hzero) hn p

end Found

namespace Cell

variable {code : Nat} {a b c : ℚ}

theorem past_mono (h : Past code a) (hab : a ≤ b) : Past code b := by
  rcases h with habove | ⟨heq, hodd⟩
  · exact .inl (habove.trans_le hab)
  · exact (heq.trans_le hab).lt_or_eq.imp_right fun heq => ⟨heq, hodd⟩

theorem of_between (ha : Cell code a) (hb : Cell code b) (hac : a ≤ c) (hcb : c ≤ b) :
    Cell code c :=
  ⟨ha.1.imp_right fun h => past_mono h hac, fun h => hb.2 (past_mono h hcb)⟩

theorem pos (h : Cell code a) (hzero : code ≠ 0) : 0 < a := by
  have hpast : Past (code - 1) a := h.1.resolve_left hzero
  have hmidpoint : 0 < midpoint (code - 1) := by
    have hlow := size_nonneg (code - 1)
    have hhigh : size (code - 1) < size (code - 1 + 1) := size_strictMono (Nat.lt_succ_self _)
    unfold midpoint
    linarith
  rcases hpast with habove | ⟨heq, -⟩
  · exact hmidpoint.trans habove
  · exact hmidpoint.trans_eq heq

end Cell

theorem found_pos {code : Nat} (hcode : code < infinityCode) (hzero : code ≠ 0) :
    0 < (found code).1 := by
  have hpos := (cell_found hcode hzero).pos hzero
  refine Nat.pos_of_ne_zero fun hnone => ?_
  rw [hnone, Nat.cast_zero, zero_mul] at hpos
  exact lt_irrefl 0 hpos

/-- The digits that the search finds are no more than those of any other decimal in the cell. -/
theorem found_lt_of_cell {code m s : Nat} {e : ℤ} (hcode : code < infinityCode)
    (hzero : code ≠ 0) (h : Cell code (m * 10 ^ e)) (hm : m < 10 ^ s) :
    (found code).1 < 10 ^ s := by
  have hfound := cell_found hcode hzero
  have hcoarser {n : Nat} := not_cell_of_coarser (n := n) hcode hzero
  generalize found code = point at *
  obtain ⟨d, n⟩ := point
  have hten : (10 : ℚ) ≠ 0 := by norm_num
  rcases lt_or_ge ((n : ℤ) - 1074) e with hcoarse | hfine
  · -- The other decimal is itself a point of the next grid.
    obtain ⟨k, hk⟩ : ∃ k : ℕ, e = k + ((n + 1 : ℕ) - 1074 : ℤ) :=
      ⟨(e - n + 1073).toNat, by omega⟩
    have hpoint : (m * 10 ^ e : ℚ) = (m * 10 ^ k : ℕ) * 10 ^ ((n + 1 : ℕ) - 1074 : ℤ) := by
      rw [hk, zpow_add₀ hten, zpow_natCast, Nat.cast_mul, Nat.cast_pow, mul_assoc]
      rfl
    rw [hpoint] at h
    exact absurd h (hcoarser (Nat.lt_succ_self n) _)
  · -- A power of ten, which is a point of a coarser grid, would lie between the two decimals.
    refine Nat.lt_of_not_le fun hd => ?_
    have hs : s ≠ 0 := by
      rintro rfl
      obtain rfl : m = 0 := by simpa using hm
      have hpos := h.pos hzero
      simp at hpos
    have hpower : ((1 : ℕ) * 10 ^ ((n + s : ℕ) - 1074 : ℤ) : ℚ) =
        10 ^ s * 10 ^ (n - 1074 : ℤ) := by
      rw [← zpow_natCast, ← zpow_add₀ hten, Nat.cast_one, one_mul]
      congr 1
      omega
    have habove : (m * 10 ^ e : ℚ) ≤ 10 ^ s * 10 ^ (n - 1074 : ℤ) :=
      mul_le_mul (by exact_mod_cast hm.le) (zpow_le_zpow_right₀ (by norm_num) hfine)
        (by positivity) (by positivity)
    have hbelow : (10 ^ s * 10 ^ (n - 1074 : ℤ) : ℚ) ≤ d * 10 ^ (n - 1074 : ℤ) :=
      mul_le_mul_of_nonneg_right (by exact_mod_cast hd) (by positivity)
    rw [← hpower] at habove hbelow
    exact hcoarser (n := n + s) (by omega) 1 (h.of_between hfound habove hbelow)

end LoxExpr.Binary64
