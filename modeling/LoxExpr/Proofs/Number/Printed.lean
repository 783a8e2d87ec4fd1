import Mathlib.Data.List.DropRight
import LoxExpr.Proofs.Lexical.Numbers
import LoxExpr.Proofs.Number.Fewest
import LoxExpr.Proofs.RoundTrip
set_option autoImplicit false

namespace LoxExpr

def significant (cs : List Char) : List Char :=
  ((cs.filter Char.isDigit).dropWhile (· == '0')).rdropWhile (· == '0')

theorem exists_eq_replicate {cs : List Char} (h : ∀ c ∈ cs, (c == '0') = true) :
    ∃ n, cs = List.replicate n '0' :=
  ⟨cs.length, List.eq_replicate_of_mem fun c hc => beq_iff_eq.1 (h c hc)⟩

theorem exists_zeros (cs : List Char) : ∃ a b, cs.filter Char.isDigit =
    List.replicate a '0' ++ (significant cs ++ List.replicate b '0') := by
  obtain ⟨a, ha⟩ := exists_eq_replicate (List.all_eq_true.1
    (List.all_takeWhile (p := (· == '0')) (l := cs.filter Char.isDigit)))
  obtain ⟨b, hb⟩ := exists_eq_replicate fun c hc => List.mem_rtakeWhile_imp (p := (· == '0'))
    (l := (cs.filter Char.isDigit).dropWhile (· == '0')) hc
  refine ⟨a, b, ?_⟩
  rw [← ha, ← hb, significant, List.rdropWhile_append_rtakeWhile,
    List.takeWhile_append_dropWhile]

theorem beq_zero_of_mem {n : Nat} : ∀ c ∈ List.replicate n '0', (c == '0') = true :=
  fun _ hc => beq_iff_eq.2 (List.eq_of_mem_replicate hc)

theorem rdropWhile_zeros (cs : List Char) (n : Nat) :
    (cs ++ List.replicate n '0').rdropWhile (· == '0') = cs.rdropWhile (· == '0') := by
  rw [List.rdropWhile, List.reverse_append, List.reverse_replicate,
    List.dropWhile_append_of_pos beq_zero_of_mem, List.rdropWhile]

theorem length_significant_le {cs core : List Char} {a b : Nat}
    (h : cs.filter Char.isDigit = List.replicate a '0' ++ (core ++ List.replicate b '0')) :
    (significant cs).length ≤ core.length := by
  rw [significant, h, List.dropWhile_append_of_pos beq_zero_of_mem, List.dropWhile_append]
  split
  · rw [List.dropWhile_eq_nil_iff.2 beq_zero_of_mem, List.rdropWhile_nil]
    exact Nat.zero_le _
  · rw [rdropWhile_zeros]
    exact (List.rdropWhile_prefix _ _).length_le.trans (List.dropWhile_suffix _).length_le

theorem ofDigitChars_lt {ds : List Char} (h : ∀ d ∈ ds, d.isDigit = true) (start : Nat) :
    Nat.ofDigitChars 10 ds start < (start + 1) * 10 ^ ds.length := by
  induction ds generalizing start with
  | nil => simp
  | cons d ds ih =>
    have hd : d.toNat ≤ '9'.toNat := (Char.isDigit_iff_toNat.1 (h d List.mem_cons_self)).2
    have hstart : 10 * start + (d.toNat - '0'.toNat) + 1 ≤ (start + 1) * 10 := by
      have hnine : '9'.toNat - '0'.toNat = 9 := rfl
      omega
    rw [Nat.ofDigitChars_cons, List.length_cons]
    calc Nat.ofDigitChars 10 ds (10 * start + (d.toNat - '0'.toNat))
      _ < (10 * start + (d.toNat - '0'.toNat) + 1) * 10 ^ ds.length :=
        ih (fun c hc => h c (List.mem_cons_of_mem d hc)) _
      _ ≤ (start + 1) * 10 * 10 ^ ds.length := Nat.mul_le_mul_right _ hstart
      _ = (start + 1) * 10 ^ (ds.length + 1) := by rw [Nat.pow_succ', Nat.mul_assoc]

theorem ofDigitChars_zeros (core : List Char) (a b : Nat) :
    Nat.ofDigitChars 10 (List.replicate a '0' ++ (core ++ List.replicate b '0')) 0 =
      Nat.ofDigitChars 10 core 0 * 10 ^ b := by
  rw [Nat.ofDigitChars_append, Nat.ofDigitChars_replicate_zero, Nat.mul_zero,
    Nat.ofDigitChars_append, Nat.ofDigitChars_replicate_zero, Nat.mul_comm]

theorem toDigits_mul_pow {d : Nat} (h : 0 < d) (k : Nat) :
    Nat.toDigits 10 (d * 10 ^ k) = Nat.toDigits 10 d ++ List.replicate k '0' := by
  induction k with
  | zero => simp
  | succ k ih =>
    have hpos : 0 < d * 10 ^ k := Nat.mul_pos h (Nat.pow_pos (by decide))
    have hnext := Nat.toDigits_append_toDigits (b := 10) (d := 0) (by decide) hpos (by decide)
    have hexp : d * 10 ^ (k + 1) = 10 * (d * 10 ^ k) + 0 := by rw [Nat.pow_succ]; ring
    rw [hexp, ← hnext, ih, Nat.toDigits_zero, List.append_assoc, List.replicate_succ']

theorem filter_isDigit {ds : List Char} (h : ∀ d ∈ ds, d.isDigit = true) :
    ds.filter Char.isDigit = ds := List.filter_eq_self.2 h

theorem filter_isDigit_point {ds fs : List Char} (hd : ∀ d ∈ ds, d.isDigit = true)
    (hf : ∀ d ∈ fs, d.isDigit = true) : (ds ++ '.' :: fs).filter Char.isDigit = ds ++ fs := by
  have hpoint : ¬ '.'.isDigit = true := by decide
  rw [List.filter_append, List.filter_cons_of_neg hpoint, filter_isDigit hd, filter_isDigit hf]

theorem Decimal.exists_exponent {cs : List Char} {q : ℚ} (h : Decimal cs q) :
    ∃ e : ℤ, q = Nat.ofDigitChars 10 (cs.filter Char.isDigit) 0 * 10 ^ e := by
  cases h with
  | whole hd => exact ⟨0, by rw [filter_isDigit hd.2, zpow_zero, mul_one]⟩
  | @fraction ds fs hd hf =>
    refine ⟨-fs.length, ?_⟩
    rw [filter_isDigit_point hd.2 hf.2, zpow_neg, zpow_natCast, div_eq_mul_inv]

theorem isDigit_of_mem_significant (cs : List Char) :
    ∀ c ∈ significant cs, c.isDigit = true := by
  intro c hc
  have hdrop := (List.rdropWhile_prefix _ _).subset hc
  exact (List.mem_filter.1 ((List.dropWhile_suffix _).subset hdrop)).2

/-- A decimal is its significant digits, moved by a power of ten. -/
theorem Decimal.exists_significant {cs : List Char} {q : ℚ} (h : Decimal cs q) :
    ∃ (m : ℕ) (e : ℤ), q = m * 10 ^ e ∧ m < 10 ^ (significant cs).length := by
  obtain ⟨e, he⟩ := h.exists_exponent
  obtain ⟨a, b, hzeros⟩ := exists_zeros cs
  have hlt := ofDigitChars_lt (isDigit_of_mem_significant cs) 0
  rw [Nat.zero_add, Nat.one_mul] at hlt
  refine ⟨Nat.ofDigitChars 10 (significant cs) 0, b + e, ?_, hlt⟩
  rw [he, hzeros, ofDigitChars_zeros, zpow_add₀ (by norm_num), zpow_natCast]
  push_cast
  ring

theorem Numeral.filter_chars (n : Numeral) : ∃ a, n.chars.filter Char.isDigit =
    List.replicate a '0' ++ Nat.toDigits 10 n.digits := by
  by_cases h : n.places = 0
  · refine ⟨0, ?_⟩
    rw [chars_whole h, filter_isDigit (digits_toDigits n.digits).2]
    rfl
  · have hpadded := (digits_padded n).2
    refine ⟨n.places + 1 - (Nat.toDigits 10 n.digits).length, ?_⟩
    rw [chars_fraction h, filter_isDigit_point (fun d hd => hpadded d (List.mem_of_mem_take hd))
      fun d hd => hpadded d (List.mem_of_mem_drop hd), List.take_append_drop, padded]

namespace Binary64

theorem filter_gridPoint {d : Nat} (h : 0 < d) (k n : Nat) :
    ∃ a b, (gridPoint k d n).chars.filter Char.isDigit =
      List.replicate a '0' ++ (Nat.toDigits 10 d ++ List.replicate b '0') := by
  obtain ⟨a, ha⟩ := (gridPoint k d n).filter_chars
  rw [ha]
  unfold gridPoint
  split
  · exact ⟨a, n - k, by rw [← toDigits_mul_pow h]; rfl⟩
  · exact ⟨a, 0, by simp⟩

/-- No decimal that rounds to a number has fewer significant digits than the shortest one. -/
theorem significant_shortest_le {code : Nat} (hcode : code < infinityCode) (hzero : code ≠ 0)
    {us : List Char} {q : ℚ} (h : Decimal us q) (hcell : Cell code q) :
    (significant (shortest code).chars).length ≤ (significant us).length := by
  obtain ⟨m, e, rfl, hm⟩ := h.exists_significant
  have hlt := found_lt_of_cell hcode hzero hcell hm
  have hpos := found_pos hcode hzero
  obtain ⟨a, b, hfilter⟩ := filter_gridPoint hpos 1074 (found code).2
  have hs : 0 < (significant us).length := by
    refine Nat.pos_of_ne_zero fun hnone => ?_
    rw [hnone, Nat.pow_zero] at hlt
    omega
  rw [shortest_eq_found hzero]
  exact (length_significant_le hfilter).trans ((Nat.length_toDigits_le_iff (by decide) hs).2 hlt)

end Binary64

theorem Numeral.decimal_chars (n : Numeral) : Decimal n.chars n.value := by
  rcases n.chars_cases with ⟨hplaces, hchars⟩ | ⟨ds, fs, hchars, hd, hf, hdigits, hlength⟩
  · have hdecimal := Decimal.whole (digits_toDigits n.digits)
    rw [Nat.ofDigitChars_ten_toDigits] at hdecimal
    rw [hchars, value, hplaces, pow_zero, div_one]
    exact hdecimal
  · have hdecimal := Decimal.fraction hd hf
    rw [hdigits, hlength] at hdecimal
    rw [hchars, value]
    exact hdecimal

namespace Binary64

def abs (x : Binary64) : Binary64 := { x with negative := false }

theorem Rounds.cell {x : Binary64} {us : List Char} {q : ℚ} (hx : x.Rounds q) (h : Decimal us q)
    (hfinite : x.isFinite = true) : Cell x.magnitude.val q := by
  obtain ⟨n, -, rfl⟩ := h.exists_read?
  obtain rfl : x = n.toBinary64 := hx.unique n.toBinary64_rounds
  rw [isFinite, decide_eq_true_iff, Numeral.toBinary64, nearest_magnitude] at hfinite
  rw [n.value_eq, Numeral.toBinary64, nearest_magnitude]
  exact (nearestCode_eq_iff_cell n.pow_places_pos hfinite).1 rfl

theorem toList_text {x : Binary64} (h : x.isFinite = true) : x.text.toList =
    if x.negative then '-' :: (shortest x.magnitude.val).chars
    else (shortest x.magnitude.val).chars := by
  have hcode : x.magnitude.val < infinityCode := of_decide_eq_true h
  have hnan : x.isNaN = false := decide_eq_false (by omega)
  have hinf : x.isInfinite = false := decide_eq_false (by omega)
  cases hsign : x.negative <;> simp [text, Numeral.text, hnan, hinf, hsign]

def minus : Token := ⟨.symbol .minus, "-", none, 1⟩

def tree (x : Binary64) : Expr :=
  if x.negative then .unary minus (.literal (.number x.abs)) else .literal (.number x)

theorem toBinary64_shortest_abs {x : Binary64} (h : x.isFinite = true) :
    (shortest x.magnitude.val).toBinary64 = x.abs := toBinary64_shortest (x := x.abs) h rfl

def digits (x : Binary64) : Token :=
  ⟨.number, (shortest x.magnitude.val).text, some (.number x.abs), 1⟩

theorem ofChars_shortest {x : Binary64} (h : x.isFinite = true) :
    Scan.ofChars 1 (shortest x.magnitude.val).chars = ⟨[x.digits, .eof 1], []⟩ := by
  rw [(Numeral.decimal_chars _).ofChars_eq (Numeral.read?_chars _), toBinary64_shortest_abs h]
  rfl

theorem next_minus (cs : List Char) :
    Segment.next '-' cs = (⟨.symbol .minus, ['-']⟩, cs) := by
  rw [Segment.next_symbol (s := .minus) rfl fun h => absurd h (by decide)]
  rfl

def tokens (x : Binary64) : List Token := if x.negative then [minus, x.digits] else [x.digits]

theorem scan_text {x : Binary64} (h : x.isFinite = true) :
    Diagnostics.empty.scan x.text = (x.tokens ++ [.eof 1], .empty) := by
  rw [Diagnostics.scan, Scan.ofText, toList_text h, tokens]
  cases x.negative with
  | false =>
    rw [if_neg Bool.false_ne_true, if_neg Bool.false_ne_true, ofChars_shortest h]
    rfl
  | true =>
    rw [if_pos rfl, if_pos rfl, Scan.ofChars_cons, next_minus]
    have hline : 1 + (⟨.symbol .minus, ['-']⟩ : Segment).newlines = 1 := rfl
    rw [hline, ofChars_shortest h]
    rfl

theorem derives_tree (x : Binary64) : Derives .expression x.tokens x.tree := by
  have hleaf : Derives (.ofRank 4) [x.digits] (.literal (.number x.abs)) :=
    .primary (.leaf (.number rfl rfl))
  rw [tokens, tree]
  cases hsign : x.negative with
  | false =>
    have habs : x.abs = x := by rw [abs, ← hsign]
    rw [habs] at hleaf
    exact .expression (hleaf.loosen (Nat.zero_le 4))
  | true =>
    have hunary : Derives (.ofRank 4) [minus, x.digits] (.unary minus (.literal (.number x.abs))) :=
      .unary .minus hleaf
    exact .expression (hunary.loosen (Nat.zero_le 4))

theorem nesting_tree (x : Binary64) : x.tree.nesting < maxNesting := by
  have hlimit : 1 < maxNesting := by decide
  rw [tree]
  split
  · exact hlimit
  · exact Nat.lt_of_succ_lt hlimit

end Binary64

theorem Parsed.ofText_of_derives {source : String} {ts : List Token} {line : Nat} {e : Expr}
    (hscan : Diagnostics.empty.scan source = (ts ++ [Token.eof line], .empty))
    (hd : Derives .expression ts e) (hn : e.nesting < maxNesting) :
    ofText source = ⟨some e, .empty⟩ := by
  obtain ⟨q, hparse⟩ := Parser.parse_of_derives hd hn line .empty
  rw [ofText, Diagnostics.parse, hscan]
  dsimp only
  rw [hparse]

/-- The text of a finite number is a decimal, with a minus sign before it iff the number has one.
The decimal rounds to the number without the sign, as no decimal with fewer significant digits does,
and the text is read as a tree for the number, up to its end and with nothing to report. -/
theorem Literal.text_reread {x : Binary64} (h : x.isFinite = true) :
    (∃ us q, (number x).text.toList = (if x.negative then '-' :: us else us) ∧ Decimal us q ∧
      x.abs.Rounds q ∧ (x.magnitude.val ≠ 0 → ∀ vs r, Decimal vs r → x.abs.Rounds r →
        (significant us).length ≤ (significant vs).length)) ∧
    (Parsed.ofText (number x).text).isClean = true ∧
    (Parsed.ofText (number x).text).expr = some x.tree ∧
    ∃ ts line, (Diagnostics.empty.scan (number x).text).1 = ts ++ [.eof line] ∧
      (Parser.ofTokens (ts ++ [.eof line])).parseExpression =
        (.ok x.tree, ⟨ts ++ [.eof line], ts.length⟩) := by
  have hscan := Binary64.scan_text h
  have hparsed := Parsed.ofText_of_derives hscan x.derives_tree x.nesting_tree
  have hrounds := (Binary64.shortest x.magnitude.val).toBinary64_rounds
  have hcode : x.magnitude.val < Binary64.infinityCode := of_decide_eq_true h
  rw [Binary64.toBinary64_shortest_abs h] at hrounds
  refine ⟨⟨_, _, Binary64.toList_text h, Numeral.decimal_chars _, hrounds, ?_⟩, ?_, ?_, x.tokens, 1,
    ?_, ?_⟩
  · intro hzero vs r hdecimal hr
    exact Binary64.significant_shortest_le hcode hzero hdecimal (hr.cell hdecimal h)
  · rw [text, hparsed]
    rfl
  · rw [text, hparsed]
  · rw [text, hscan]
  · have hclosed := Parser.parseExpression_of_derives x.derives_tree x.nesting_tree 1
    rwa [Parser.closed_append_eof _ rfl] at hclosed

theorem Literal.text_reread_tenth :
    let x : Binary64 := ⟨true, 0x3fb999999999999a⟩
    x.isFinite = true ∧ (number x).text = "-0.1" ∧ (Parsed.ofText "-0.1").isClean = true ∧
      (Parsed.ofText "-0.1").expr =
        some (.unary ⟨.symbol .minus, "-", none, 1⟩ (.literal (.number x.abs))) := by
  intro x
  have hfinite : x.isFinite = true := by decide
  have htext : (number x).text = "-0.1" := by decide +kernel
  obtain ⟨-, hclean, hexpr, -⟩ := text_reread hfinite
  rw [htext] at hclean hexpr
  exact ⟨hfinite, htext, hclean, hexpr⟩

end LoxExpr
