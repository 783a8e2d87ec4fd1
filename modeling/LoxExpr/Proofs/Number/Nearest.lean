import LoxExpr.Number
set_option autoImplicit false

/-!
The nearest code is decided by the boundaries between neighbouring codes: it lies above a code iff
the fraction lies beyond the boundary there. This determines the nearest code of every fraction, and
the boundary above the last finite code is the one beyond which a fraction is too large.
-/

namespace LoxExpr

theorem roundDiv_cases (num den : Nat) :
    roundDiv num den = num / den ∨ roundDiv num den = num / den + 1 := by
  unfold roundDiv
  dsimp only
  split
  · exact .inl rfl
  · exact .inr rfl

theorem lt_roundDiv_iff (num den : Nat) : num / den < roundDiv num den ↔
    (2 * (num / den) + 1) * den < 2 * num ∨
      ((2 * (num / den) + 1) * den = 2 * num ∧ num / den % 2 = 1) := by
  have hcut := Nat.div_add_mod' num den
  have hhalf : (2 * (num / den) + 1) * den = 2 * (num / den * den) + den := by
    rw [Nat.add_mul, Nat.mul_assoc, Nat.one_mul]
  unfold roundDiv
  dsimp only
  split <;> omega

namespace Binary64

theorem units_le {a b : Nat} (h : a ≤ b) : units a ≤ units b := by
  induction h with
  | refl => exact Nat.le_refl _
  | step _ ih => exact Nat.le_trans ih (Nat.le_of_lt (units_lt_succ _))

/-- In each binade the code grows by one per spacing, up to the first code of the next binade. -/
theorem units_binade {shift m : Nat} (hlow : shift = 0 ∨ binade ≤ m) (hhigh : m ≤ 2 * binade) :
    units (shift * binade + m) = m <<< shift := by
  unfold units significand doublings binade at *
  by_cases htop : m = 2 * 0x10000000000000
  · have hcode : ¬ shift * 0x10000000000000 + m < 0x10000000000000 := by omega
    have hsig : (shift * 0x10000000000000 + m) % 0x10000000000000 = 0 := by omega
    have hd : (shift * 0x10000000000000 + m) / 0x10000000000000 - 1 = shift + 1 := by omega
    rw [if_neg hcode, hsig, hd, htop, Nat.shiftLeft_succ_inside]
  · by_cases hsmall : m < 0x10000000000000
    · obtain rfl : shift = 0 := by omega
      have hd : (0 * 0x10000000000000 + m) / 0x10000000000000 - 1 = 0 := by omega
      rw [if_pos (by omega), hd, Nat.zero_mul, Nat.zero_add]
    · have hcode : ¬ shift * 0x10000000000000 + m < 0x10000000000000 := by omega
      have hsig : (shift * 0x10000000000000 + m) % 0x10000000000000 + 0x10000000000000 = m := by
        omega
      have hd : (shift * 0x10000000000000 + m) / 0x10000000000000 - 1 = shift := by omega
      rw [if_neg hcode, hsig, hd]

/-- Twice the boundary between a code and the next. -/
def tie (code : Nat) : Nat := units code + units (code + 1)

/-- The fraction lies beyond the boundary above a code; on it, the even code is the nearest. -/
def Beyond (num den code : Nat) : Prop :=
  tie code * den < 2 * (num <<< 1074) ∨ (tie code * den = 2 * (num <<< 1074) ∧ code % 2 = 1)

def spacings (num den : Nat) : Nat := ((num <<< 1074) / den).log2 - 52

def cut (num den : Nat) : Nat := (num <<< 1074) / (den <<< spacings num den)

def floorCode (num den : Nat) : Nat := spacings num den * binade + cut num den

theorem cut_eq (num den : Nat) :
    cut num den = ((num <<< 1074) / den) >>> spacings num den := by
  rw [cut, Nat.shiftLeft_eq den, ← Nat.div_div_eq_div_mul, Nat.shiftRight_eq_div_pow]

theorem cut_lt (num den : Nat) : cut num den < 2 * binade := by
  have hexp : 2 * binade = 2 ^ 53 := by decide
  rw [cut_eq, spacings, Nat.shiftRight_eq_div_pow, Nat.div_lt_iff_lt_mul (Nat.two_pow_pos _),
    hexp, ← Nat.pow_add]
  exact Nat.lt_of_lt_of_le Nat.lt_log2_self (Nat.pow_le_pow_right (by decide) (by omega))

theorem binade_le_cut {num den : Nat} (h : spacings num den ≠ 0) : binade ≤ cut num den := by
  have hexp : binade = 2 ^ 52 := by decide
  rw [cut_eq, Nat.shiftRight_eq_div_pow, Nat.le_div_iff_mul_le (Nat.two_pow_pos _), hexp,
    ← Nat.pow_add]
  unfold spacings at *
  have hne : (num <<< 1074) / den ≠ 0 := by
    intro hzero
    rw [hzero] at h
    exact h rfl
  exact Nat.le_trans (Nat.pow_le_pow_right (by decide) (by omega)) (Nat.log2_self_le hne)

theorem units_floorCode (num den : Nat) :
    units (floorCode num den) * den = cut num den * (den <<< spacings num den) := by
  have hlow : spacings num den = 0 ∨ binade ≤ cut num den :=
    (Nat.eq_zero_or_pos _).imp_right fun h => binade_le_cut (Nat.ne_of_gt h)
  rw [floorCode, units_binade hlow (Nat.le_of_lt (cut_lt num den)), Nat.shiftLeft_eq,
    Nat.shiftLeft_eq, Nat.mul_assoc, Nat.mul_comm den]

theorem units_floorCode_succ (num den : Nat) :
    units (floorCode num den + 1) * den = (cut num den + 1) * (den <<< spacings num den) := by
  have hlow : spacings num den = 0 ∨ binade ≤ cut num den + 1 :=
    (Nat.eq_zero_or_pos _).imp_right fun h =>
      Nat.le_succ_of_le (binade_le_cut (Nat.ne_of_gt h))
  rw [floorCode, Nat.add_assoc, units_binade hlow (cut_lt num den), Nat.shiftLeft_eq,
    Nat.shiftLeft_eq, Nat.mul_assoc, Nat.mul_comm den]

theorem floorCode_le (num den : Nat) : units (floorCode num den) * den ≤ num <<< 1074 := by
  rw [units_floorCode]
  exact Nat.div_mul_le_self _ _

theorem lt_floorCode_succ {den : Nat} (num : Nat) (h : 0 < den) :
    num <<< 1074 < units (floorCode num den + 1) * den := by
  have hpos : 0 < den <<< spacings num den := by
    rw [Nat.shiftLeft_eq]
    exact Nat.mul_pos h (Nat.two_pow_pos _)
  rw [units_floorCode_succ, Nat.mul_comm]
  exact Nat.lt_mul_div_succ _ hpos

theorem tie_floorCode (num den : Nat) :
    tie (floorCode num den) * den = (2 * cut num den + 1) * (den <<< spacings num den) := by
  have hsum : cut num den + (cut num den + 1) = 2 * cut num den + 1 := by omega
  rw [tie, Nat.add_mul, units_floorCode, units_floorCode_succ, ← Nat.add_mul, hsum]

theorem tie_lt_of_lt {a b : Nat} (h : a < b) : tie a < 2 * units b := by
  have hlt := units_lt_succ a
  have hle : units (a + 1) ≤ units b := units_le h
  unfold tie
  omega

theorem lt_tie_of_lt {a b : Nat} (h : a < b) : 2 * units (a + 1) < tie b := by
  have hlt := units_lt_succ b
  have hle : units (a + 1) ≤ units b := units_le h
  unfold tie
  omega

/-- Between two neighbouring codes only the boundary between them decides. -/
theorem beyond_of_between {num den base code : Nat} (hden : 0 < den)
    (hlow : units base * den ≤ num <<< 1074) (hhigh : num <<< 1074 < units (base + 1) * den)
    (hne : code ≠ base) : Beyond num den code ↔ code < base := by
  rcases Nat.lt_or_gt_of_ne hne with h | h
  · have htie := Nat.mul_lt_mul_of_pos_right (tie_lt_of_lt h) hden
    rw [Nat.mul_assoc] at htie
    exact ⟨fun _ => h, fun _ => .inl (by omega)⟩
  · have htie := Nat.mul_lt_mul_of_pos_right (lt_tie_of_lt h) hden
    rw [Nat.mul_assoc] at htie
    constructor
    · rintro (hb | ⟨hb, -⟩) <;> omega
    · intro hb; omega

/-- The nearest code is the one below the fraction or the next, and the boundary between them
decides; past the finite codes it is the code of infinity. -/
theorem nearestCode_cases (num den : Nat) : ∃ code,
    nearestCode num den = min code infinityCode ∧
      (code = floorCode num den ∨ code = floorCode num den + 1) ∧
      (floorCode num den < code ↔ Beyond num den (floorCode num den)) := by
  have heven : floorCode num den % 2 = cut num den % 2 := by unfold floorCode binade; omega
  refine ⟨spacings num den * binade + roundDiv (num <<< 1074) (den <<< spacings num den),
    ?_, ?_, ?_⟩
  · unfold nearestCode spacings
    dsimp only
    split <;> omega
  · have hcases := roundDiv_cases (num <<< 1074) (den <<< spacings num den)
    unfold floorCode cut
    omega
  · rw [Beyond, tie_floorCode, heven]
    unfold floorCode cut
    rw [← lt_roundDiv_iff]
    omega

/-- The nearest code lies above a code iff the fraction lies beyond the boundary there. -/
theorem lt_nearestCode_iff {num den code : Nat} (hden : 0 < den) (hcode : code < infinityCode) :
    code < nearestCode num den ↔ Beyond num den code := by
  obtain ⟨rounded, hnearest, hcases, hfloor⟩ := nearestCode_cases num den
  have hcap : code < nearestCode num den ↔ code < rounded := by omega
  rw [hcap]
  by_cases hne : code = floorCode num den
  · rw [hne, hfloor]
  · rw [beyond_of_between hden (floorCode_le num den) (lt_floorCode_succ num hden) hne]
    omega

theorem nearestCode_eq_iff {num den code : Nat} (hden : 0 < den) (hcode : code < infinityCode) :
    nearestCode num den = code ↔
      (code = 0 ∨ Beyond num den (code - 1)) ∧ ¬ Beyond num den code := by
  have hpred : code - 1 < infinityCode := by omega
  have habove : code < nearestCode num den ↔ _ := lt_nearestCode_iff hden hcode
  have hbelow : code - 1 < nearestCode num den ↔ _ := lt_nearestCode_iff hden hpred
  rw [← habove, ← hbelow]
  omega

end Binary64

end LoxExpr
