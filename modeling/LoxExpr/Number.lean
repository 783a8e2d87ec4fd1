set_option autoImplicit false

/-!
Numbers of 64 bits as a sign and a magnitude code. Codes are ordered as the magnitudes are, and the
neighbours of a number are the codes next to its own. Decimals are read to the nearest number, ties
going to the even code, and a number is written as the shortest decimal that reads back to it.
-/

namespace LoxExpr

/-- The sixty-three low bits of the interchange format are the magnitude code. -/
structure Binary64 where
  negative : Bool
  magnitude : Fin 0x8000000000000000
  deriving DecidableEq, Repr

namespace Binary64

/-- The code above all finite magnitudes; greater codes are not numbers. -/
def infinityCode : Nat := 0x7ff0000000000000

def ofBits (word : UInt64) : Binary64 where
  negative := decide (0x8000000000000000 ≤ word.toNat)
  magnitude := ⟨word.toNat % 0x8000000000000000, Nat.mod_lt _ (by decide)⟩

def isNaN (x : Binary64) : Bool := decide (infinityCode < x.magnitude.val)

def isInfinite (x : Binary64) : Bool := decide (x.magnitude.val = infinityCode)

def isFinite (x : Binary64) : Bool := decide (x.magnitude.val < infinityCode)

def equal (x y : Binary64) : Bool :=
  !x.isNaN && !y.isNaN && (x == y || (x.magnitude.val == 0 && y.magnitude.val == 0))

/-- The count of codes in a binade, the stretch of codes with one spacing. The spacing doubles from
each binade to the next, but for the first two, which share theirs. -/
def binade : Nat := 0x10000000000000

def significand (code : Nat) : Nat := if code < binade then code else code % binade + binade

def doublings (code : Nat) : Nat := code / binade - 1

/-- The value of a code in units of 2^-1074. The code of infinity gets the value that the next
finite magnitude would have. -/
def units (code : Nat) : Nat := significand code <<< doublings code

theorem units_zero : units 0 = 0 := by decide

theorem units_succ (code : Nat) : units (code + 1) = units code + 1 <<< doublings code := by
  unfold units significand doublings binade
  by_cases small : code + 1 < 0x10000000000000
  · have lower : code < 0x10000000000000 := by omega
    have d₁ : (code + 1) / 0x10000000000000 - 1 = 0 := by omega
    have d₀ : code / 0x10000000000000 - 1 = 0 := by omega
    rw [if_pos small, if_pos lower, d₁, d₀]; rfl
  · by_cases first : code < 0x10000000000000
    · obtain rfl : code = 0xfffffffffffff := by omega
      decide
    · rw [if_neg small, if_neg first]
      by_cases carry : (code + 1) % 0x10000000000000 = 0
      · have d₁ : (code + 1) / 0x10000000000000 - 1 = code / 0x10000000000000 - 1 + 1 := by omega
        have top : code % 0x10000000000000 = 0xfffffffffffff := by omega
        rw [carry, top, d₁]
        simp only [Nat.shiftLeft_eq, Nat.pow_succ]; omega
      · have d₁ : (code + 1) / 0x10000000000000 = code / 0x10000000000000 := by omega
        have next : (code + 1) % 0x10000000000000 = code % 0x10000000000000 + 1 := by omega
        rw [d₁, next]
        simp only [Nat.shiftLeft_eq, Nat.add_mul]; omega

theorem units_lt_succ (code : Nat) : units code < units (code + 1) := by
  have spacing : 0 < 1 <<< doublings code := by
    rw [Nat.one_shiftLeft]; exact Nat.two_pow_pos _
  rw [units_succ]; omega

end Binary64

/-- The numeral stands for `digits / 10 ^ places`. -/
structure Numeral where
  digits : Nat
  places : Nat
  deriving DecidableEq, Repr

namespace Numeral

def read? (cs : List Char) : Option Numeral :=
  let whole := cs.takeWhile Char.isDigit
  match whole, cs.dropWhile Char.isDigit with
  | [], _ => none
  | _, [] => some ⟨Nat.ofDigitChars 10 whole 0, 0⟩
  | _, '.' :: fraction =>
      if !fraction.isEmpty && fraction.all Char.isDigit then
        some ⟨Nat.ofDigitChars 10 (whole ++ fraction) 0, fraction.length⟩
      else none
  | _, _ :: _ => none

def chars (x : Numeral) : List Char :=
  let ds := Nat.toDigits 10 x.digits
  let padded := List.replicate (x.places + 1 - ds.length) '0' ++ ds
  let whole := padded.take (padded.length - x.places)
  if x.places = 0 then whole else whole ++ '.' :: padded.drop (padded.length - x.places)

def text (x : Numeral) : String := String.ofList x.chars

end Numeral

/-- The whole number nearest to `num / den`, a half going to the even neighbour. -/
def roundDiv (num den : Nat) : Nat :=
  let floor := num / den
  let twice := 2 * (num % den)
  if twice < den ∨ (twice = den ∧ floor % 2 = 0) then floor else floor + 1

namespace Binary64

def nearestCode (num den : Nat) : Nat :=
  let scaled := num <<< 1074
  let shift := (scaled / den).log2 - 52
  let code := shift * binade + roundDiv scaled (den <<< shift)
  if code < infinityCode then code else infinityCode

theorem nearestCode_le (num den : Nat) : nearestCode num den ≤ infinityCode := by
  unfold nearestCode
  dsimp only
  split
  · next below => exact Nat.le_of_lt below
  · exact Nat.le_refl _

def nearest (num den : Nat) : Binary64 where
  negative := false
  magnitude := ⟨nearestCode num den,
    Nat.lt_of_le_of_lt (nearestCode_le num den) (by decide)⟩

theorem nearest_isNaN (num den : Nat) : (nearest num den).isNaN = false :=
  decide_eq_false (Nat.not_lt.2 (nearestCode_le num den))

end Binary64

def Numeral.toBinary64 (x : Numeral) : Binary64 := Binary64.nearest x.digits (Nat.pow 10 x.places)

namespace Binary64

/-- The decimals that read back to one finite magnitude. Its ends belong to it iff the code is
even, since a reading that falls on a boundary goes to the even code. -/
structure Interval where
  value : Nat
  low : Nat
  high : Nat
  closed : Bool
  deriving DecidableEq, Repr

def interval (code : Nat) : Interval where
  value := 2 * units code * Nat.pow 5 1074
  low := (units (code - 1) + units code) * Nat.pow 5 1074
  high := (units code + units (code + 1)) * Nat.pow 5 1074
  closed := code % 2 == 0

namespace Interval

def holds (i : Interval) (x : Nat) : Bool :=
  if i.closed then decide (i.low ≤ x ∧ x ≤ i.high) else decide (i.low < x ∧ x < i.high)

/-- The point of grid `n` nearest to the value, if one of its two neighbours there lies in the
interval; of two neighbours equally far the upper is taken. -/
def onGrid? (i : Interval) (n : Nat) : Option Nat :=
  let step := 2 * Nat.pow 10 n
  let below := i.value / step
  let lower := i.holds (below * step)
  let upper := i.holds ((below + 1) * step)
  if lower && (!upper || decide (2 * (i.value % step) < step)) then some below
  else if upper then some (below + 1)
  else none

/-- Tries grids `n`, `n - 1`, and so on; on the finest one the value itself is a point. -/
def coarsest (i : Interval) : Nat → Nat × Nat
  | 0 => (i.value / 2, 0)
  | n + 1 => match i.onGrid? (n + 1) with
    | some d => (d, n + 1)
    | none => i.coarsest n

/-- A grid whose first point lies above the interval, because 2^93 < 10^28. -/
def start (i : Interval) : Nat := i.high.log2 * 28 / 93 + 2

end Interval

def shortest (code : Nat) : Numeral :=
  if code = 0 then ⟨0, 0⟩
  else
    let i := interval code
    let (d, n) := i.coarsest i.start
    if 1074 ≤ n then ⟨d * Nat.pow 10 (n - 1074), 0⟩ else ⟨d, 1074 - n⟩

def text (x : Binary64) : String :=
  if x.isNaN then "NaN"
  else
    let sign := if x.negative then "-" else ""
    sign ++ (if x.isInfinite then "inf" else (shortest x.magnitude.val).text)

end Binary64

end LoxExpr
