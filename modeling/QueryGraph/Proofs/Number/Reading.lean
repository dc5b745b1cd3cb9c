import Mathlib.Algebra.Order.Ring.Nat
import Mathlib.Data.List.TakeWhile
import Mathlib.Tactic.Ring
import QueryGraph.Proofs.Number.Text

namespace QueryGraph

/-!
# Number texts read back

* `StopsNumber rest`: no number text goes on with `rest`.
* `Numeral.scan_eq_some_iff`: what the scan of a number text finds, part by part.
* `Numeral.scan_append`: what stands behind a number text does not change what is found.
* `Double.ofRatio?_size`: the exact value of a double is rounded to that double.
* `Number.ofChars?_chars`: the text of a number stands for that number.
-/

/-- Characters with which a number text can go on behind a digit. -/
def goesOnNumber (c : Char) : Bool := c.isDigit || c = '.' || c = 'e' || c = 'E'

/-- A text with which no number text goes on. -/
def StopsNumber (rest : List Char) : Prop := ∀ c ∈ rest.head?, goesOnNumber c = false

theorem stopsNumber_nil : StopsNumber [] := by simp [StopsNumber]

/-- Only the next character decides whether a number ends. -/
theorem stopsNumber_cons {c : Char} {cs : List Char} :
    StopsNumber (c :: cs) ↔ goesOnNumber c = false := by
  simp [StopsNumber]

theorem goesOnNumber_eq_false_iff {c : Char} :
    goesOnNumber c = false ↔ c.isDigit = false ∧ c ≠ '.' ∧ c ≠ 'e' ∧ c ≠ 'E' := by
  simp [goesOnNumber, and_assoc]

/-! ### Taking digits -/

theorem StopsNumber.isDigit {rest : List Char} (h : StopsNumber rest) :
    ∀ c ∈ rest.head?, c.isDigit = false :=
  fun c hc => (goesOnNumber_eq_false_iff.mp (h c hc)).1

section Digits

variable {rest : List Char} (hrest : ∀ c ∈ rest.head?, c.isDigit = false)

include hrest

/-- Digits are taken up to the end of the text, not beyond it. -/
theorem takeWhile_isDigit_append (cs : List Char) :
    (cs ++ rest).takeWhile Char.isDigit = cs.takeWhile Char.isDigit := by
  induction cs with
  | nil =>
    cases rest with
    | nil => rfl
    | cons c rest => simp [hrest c rfl]
  | cons c cs ih =>
    rw [List.cons_append, List.takeWhile_cons, List.takeWhile_cons, ih]

/-- What is left behind the digits keeps what follows. -/
theorem dropWhile_isDigit_append (cs : List Char) :
    (cs ++ rest).dropWhile Char.isDigit = cs.dropWhile Char.isDigit ++ rest := by
  induction cs with
  | nil =>
    cases rest with
    | nil => rfl
    | cons c rest => simp [hrest c rfl]
  | cons c cs ih =>
    rw [List.cons_append, List.dropWhile_cons, List.dropWhile_cons, ih]
    split <;> rfl

/-- A whole part ends where no digit follows. -/
theorem Numeral.scanWhole_append {cs whole tail : List Char}
    (h : scanWhole cs = some (whole, tail)) :
    scanWhole (cs ++ rest) = some (whole, tail ++ rest) := by
  cases cs with
  | nil => exact absurd h (by simp [scanWhole])
  | cons c cs =>
    -- A zero stands alone; any other digit may be followed by more.
    by_cases hzero : c = '0'
    · subst hzero
      cases cs with
      | nil =>
        obtain ⟨rfl, rfl⟩ := Prod.mk.inj (Option.some.inj h)
        cases rest with
        | nil => rfl
        | cons c rest => simp [scanWhole, hrest c rfl]
      | cons d cs =>
        by_cases hd : d.isDigit = true
        · exact absurd h (by simp [scanWhole, hd])
        · obtain ⟨rfl, rfl⟩ : ['0'] = whole ∧ d :: cs = tail := by simpa [scanWhole, hd] using h
          simp [scanWhole, hd]
    · by_cases hc : c.isDigit = true
      · simp only [scanWhole, hzero, hc, if_true, if_false, Option.some.injEq, Prod.mk.injEq] at h
        simp only [List.cons_append, scanWhole, hzero, hc, if_true, if_false]
        rw [← List.cons_append, takeWhile_isDigit_append hrest, dropWhile_isDigit_append hrest,
          h.1, h.2]
      · exact absurd h (by simp [scanWhole, hzero, hc])

end Digits

namespace Numeral

/-! ### The parts of a number text -/

/-- A number text is a sign, a whole part, a fraction and an exponent, each taken off the front
    of what the one before leaves. -/
theorem scan_eq_some_iff {cs tail : List Char} {n : Numeral} :
    scan cs = some (n, tail) ↔
      n.negative = decide (cs.head? = some '-') ∧
        ∃ cs₁ cs₂, scanWhole (if n.negative then cs.drop 1 else cs) = some (n.whole, cs₁) ∧
          scanFraction cs₁ = some (n.fraction, cs₂) ∧
          scanExponent cs₂ = some (n.exponentNegative, n.exponent, tail) := by
  constructor
  · intro h
    simp only [scan] at h
    split at h
    · exact absurd h (by simp)
    next whole cs₁ hwhole =>
      split at h
      · exact absurd h (by simp)
      next fraction cs₂ hfraction =>
        split at h
        · exact absurd h (by simp)
        next exponentNegative exponent cs₃ hexponent =>
          obtain ⟨rfl, rfl⟩ := Prod.mk.inj (Option.some.inj h)
          refine ⟨rfl, cs₁, cs₂, ?_, hfraction, hexponent⟩
          rw [← hwhole]
          simp only [decide_eq_true_eq]
  · rintro ⟨hnegative, cs₁, cs₂, hwhole, hfraction, hexponent⟩
    rw [hnegative] at hwhole
    simp only [decide_eq_true_eq] at hwhole
    simp only [scan, hwhole, hfraction, hexponent]
    rw [← hnegative]

/-- An exponent without a sign. -/
theorem scanExponent_unsigned {c d : Char} {cs : List Char} (hc : (c = 'e' || c = 'E') = true)
    (hplus : d ≠ '+') (hminus : d ≠ '-') :
    scanExponent (c :: d :: cs)
      = (scanExponentDigits (d :: cs)).map fun p => (false, p.1, p.2) := by
  simp only [scanExponent, hc, if_true]
  split <;> simp_all

/-- Behind its mark an exponent is digits, of which a sign may be skipped. -/
theorem exists_scanExponent_eq {c : Char} (hc : (c = 'e' || c = 'E') = true) (d : Char)
    (ds : List Char) :
    ∃ negative skip, ∀ rest, scanExponent (c :: d :: (ds ++ rest))
      = (scanExponentDigits ((d :: ds).drop skip ++ rest)).map fun p => (negative, p.1, p.2) := by
  by_cases hplus : d = '+'
  · subst hplus
    exact ⟨false, 1, fun rest => by simp [scanExponent, hc]⟩
  · by_cases hminus : d = '-'
    · subst hminus
      exact ⟨true, 1, fun rest => by simp [scanExponent, hc]⟩
    · exact ⟨false, 0, fun rest => scanExponent_unsigned hc hplus hminus⟩

/-- Either there is no exponent, or its digits are found behind the mark and the sign, also with
    more text behind them. -/
theorem scanExponent_cases {cs digits tail : List Char} {negative : Bool}
    (h : scanExponent cs = some (negative, digits, tail)) :
    ((∀ c ∈ cs.head?, ¬(c = 'e' || c = 'E') = true) ∧
        negative = false ∧ digits = [] ∧ tail = cs) ∨
      ∃ ds, ds.length ≤ cs.length ∧ scanExponentDigits ds = some (digits, tail) ∧
        ∀ rest tail', scanExponentDigits (ds ++ rest) = some (digits, tail') →
          scanExponent (cs ++ rest) = some (negative, digits, tail') := by
  cases cs with
  | nil =>
    obtain ⟨rfl, rfl, rfl⟩ : false = negative ∧ [] = digits ∧ [] = tail := by
      simpa [scanExponent] using h
    exact .inl ⟨by simp, rfl, rfl, rfl⟩
  | cons c cs =>
    by_cases hc : (c = 'e' || c = 'E') = true
    · cases cs with
      | nil => exact absurd h (by simp [scanExponent, scanExponentDigits, hc])
      | cons d ds =>
        obtain ⟨flag, skip, heq⟩ := exists_scanExponent_eq hc d ds
        have hread := heq []
        rw [List.append_nil, List.append_nil, h] at hread
        obtain ⟨⟨found, left⟩, hfound, hparts⟩ := Option.map_eq_some_iff.mp hread.symm
        obtain ⟨rfl, rfl, rfl⟩ : flag = negative ∧ found = digits ∧ left = tail := by
          simpa using hparts
        refine .inr ⟨(d :: ds).drop skip, ?_, hfound, fun rest tail' hrest => ?_⟩
        · simp only [List.length_drop, List.length_cons]
          omega
        · rw [List.cons_append, List.cons_append, heq rest, hrest]
          rfl
    · simp only [scanExponent, hc] at h
      obtain ⟨rfl, rfl, rfl⟩ : false = negative ∧ [] = digits ∧ c :: cs = tail := by
        simpa using h
      exact .inl ⟨by simpa using hc, rfl, rfl, rfl⟩

section Append

variable {rest : List Char} (hrest : StopsNumber rest)

include hrest

/-- The fraction does not go on in what follows. -/
theorem scanFraction_append {cs fraction tail : List Char}
    (h : scanFraction cs = some (fraction, tail)) :
    scanFraction (cs ++ rest) = some (fraction, tail ++ rest) := by
  cases cs with
  | nil =>
    obtain ⟨rfl, rfl⟩ := Prod.mk.inj (Option.some.inj h)
    cases rest with
    | nil => rfl
    | cons c rest =>
      have hc := (goesOnNumber_eq_false_iff.mp (stopsNumber_cons.mp hrest)).2.1
      simp [scanFraction, hc]
  | cons c cs =>
    by_cases hc : c = '.'
    · subst hc
      simp only [List.cons_append, scanFraction] at h ⊢
      rw [takeWhile_isDigit_append hrest.isDigit, dropWhile_isDigit_append hrest.isDigit]
      split at h
      · exact absurd h (by simp)
      · obtain ⟨rfl, rfl⟩ := Prod.mk.inj (Option.some.inj h)
        rw [if_neg ‹_›]
    · obtain ⟨rfl, rfl⟩ : [] = fraction ∧ c :: cs = tail := by simpa [scanFraction, hc] using h
      simp [scanFraction, hc]

/-- The digits of an exponent do not go on in what follows. -/
theorem scanExponentDigits_append {cs digits tail : List Char}
    (h : scanExponentDigits cs = some (digits, tail)) :
    scanExponentDigits (cs ++ rest) = some (digits, tail ++ rest) := by
  simp only [scanExponentDigits] at h ⊢
  rw [takeWhile_isDigit_append hrest.isDigit, dropWhile_isDigit_append hrest.isDigit]
  split at h
  · exact absurd h (by simp)
  · obtain ⟨rfl, rfl⟩ := Prod.mk.inj (Option.some.inj h)
    rw [if_neg ‹_›]

/-- The exponent does not go on in what follows, also where there is none. -/
theorem scanExponent_append {cs digits tail : List Char} {negative : Bool}
    (h : scanExponent cs = some (negative, digits, tail)) :
    scanExponent (cs ++ rest) = some (negative, digits, tail ++ rest) := by
  rcases scanExponent_cases h with ⟨hmark, rfl, rfl, rfl⟩ | ⟨ds, -, hdigits, hread⟩
  · -- Without an exponent, what follows must not begin with its mark.
    have hhead : ∀ c ∈ (tail ++ rest).head?, ¬(c = 'e' || c = 'E') = true := by
      cases tail with
      | nil =>
        intro c hc
        have hstop := goesOnNumber_eq_false_iff.mp (hrest c hc)
        simp [hstop.2.2.1, hstop.2.2.2]
      | cons c cs => exact hmark
    cases happend : tail ++ rest with
    | nil => rfl
    | cons c cs =>
      rw [happend] at hhead
      simp only [scanExponent, hhead c rfl]
      rfl
  · exact hread rest _ (scanExponentDigits_append hrest hdigits)

/-- What stands behind a number text does not change what is found in it. -/
theorem scan_append {cs tail : List Char} {n : Numeral} (h : scan cs = some (n, tail)) :
    scan (cs ++ rest) = some (n, tail ++ rest) := by
  obtain ⟨hnegative, cs₁, cs₂, hwhole, hfraction, hexponent⟩ := scan_eq_some_iff.mp h
  cases cs with
  | nil => exact absurd hwhole (by simp [scanWhole])
  | cons c cs =>
    refine scan_eq_some_iff.mpr ⟨hnegative, cs₁ ++ rest, cs₂ ++ rest, ?_,
      scanFraction_append hrest hfraction, scanExponent_append hrest hexponent⟩
    -- The sign stands in front of what was read, so it is the same.
    rw [← scanWhole_append hrest.isDigit hwhole]
    split <;> rfl

end Append

/-! ### A number text is not empty -/

theorem length_dropWhile_isDigit_le (cs : List Char) :
    (cs.dropWhile Char.isDigit).length ≤ cs.length :=
  (List.dropWhile_suffix _).length_le

/-- The whole part has at least one digit. -/
theorem length_scanWhole_lt {cs whole tail : List Char} (h : scanWhole cs = some (whole, tail)) :
    tail.length < cs.length := by
  cases cs with
  | nil => exact absurd h (by simp [scanWhole])
  | cons c cs =>
    by_cases hzero : c = '0'
    · subst hzero
      cases cs with
      | nil =>
        obtain ⟨rfl, rfl⟩ := Prod.mk.inj (Option.some.inj h)
        simp
      | cons d cs =>
        by_cases hd : d.isDigit = true
        · exact absurd h (by simp [scanWhole, hd])
        · obtain ⟨rfl, rfl⟩ : ['0'] = whole ∧ d :: cs = tail := by simpa [scanWhole, hd] using h
          simp
    · by_cases hc : c.isDigit = true
      · simp only [scanWhole, hzero, hc, if_true, if_false, Option.some.injEq, Prod.mk.injEq,
          List.dropWhile_cons] at h
        rw [← h.2, List.length_cons]
        exact Nat.lt_succ_of_le (length_dropWhile_isDigit_le cs)
      · exact absurd h (by simp [scanWhole, hzero, hc])

/-- A fraction may be absent. -/
theorem length_scanFraction_le {cs fraction tail : List Char}
    (h : scanFraction cs = some (fraction, tail)) : tail.length ≤ cs.length := by
  unfold scanFraction at h
  split at h
  next cs =>
    split at h
    · exact absurd h (by simp)
    · obtain ⟨-, rfl⟩ := Prod.mk.inj (Option.some.inj h)
      exact Nat.le_succ_of_le (length_dropWhile_isDigit_le cs)
  · obtain ⟨-, rfl⟩ := Prod.mk.inj (Option.some.inj h)
    exact le_rfl

/-- The digits of an exponent are taken from the text. -/
theorem length_scanExponentDigits_le {cs digits tail : List Char}
    (h : scanExponentDigits cs = some (digits, tail)) : tail.length ≤ cs.length := by
  unfold scanExponentDigits at h
  split at h
  · exact absurd h (by simp)
  · obtain ⟨-, rfl⟩ := Prod.mk.inj (Option.some.inj h)
    exact length_dropWhile_isDigit_le cs

/-- An exponent may be absent. -/
theorem length_scanExponent_le {cs digits tail : List Char} {negative : Bool}
    (h : scanExponent cs = some (negative, digits, tail)) : tail.length ≤ cs.length := by
  rcases scanExponent_cases h with ⟨-, -, -, rfl⟩ | ⟨ds, hle, hdigits, -⟩
  · exact le_rfl
  · exact (length_scanExponentDigits_le hdigits).trans hle

/-- A number takes at least one character: its whole part does. -/
theorem length_scan_lt {cs tail : List Char} {n : Numeral} (h : scan cs = some (n, tail)) :
    tail.length < cs.length := by
  obtain ⟨-, cs₁, cs₂, hwhole, hfraction, hexponent⟩ := scan_eq_some_iff.mp h
  have hsign : (if n.negative then cs.drop 1 else cs).length ≤ cs.length := by
    split
    · simp
    · exact le_rfl
  calc tail.length ≤ cs₂.length := length_scanExponent_le hexponent
    _ ≤ cs₁.length := length_scanFraction_le hfraction
    _ < _ := length_scanWhole_lt hwhole
    _ ≤ cs.length := hsign

end Numeral

/-! ### Decimal digits -/

/-- Digits that may stand in front of a point: no zero leads any others. -/
structure IsWhole (ds : List Char) : Prop where
  isDigits : IsDigits ds
  zero_alone : ds.head? = some '0' → ds = ['0']

/-- The digits of a natural number have that number as their value. -/
theorem digitsValue_decimalChars (n : Nat) : digitsValue (decimalChars n) = n :=
  Nat.ofDigitChars_ten_toDigits

/-- The digits of a positive number begin with no zero. -/
theorem head?_decimalChars_ne {n : Nat} (hn : 0 < n) : (decimalChars n).head? ≠ some '0' := by
  -- The digits of `n` are those of `n / 10` with one more behind them.
  induction n using Nat.strongRecOn with
  | ind n ih =>
    rw [decimalChars, Nat.toDigits_eq_if (by decide)]
    split
    · simp
      omega
    · have hhead := ih (n / 10) (by omega) (by omega)
      rw [decimalChars] at hhead
      rwa [List.head?_append_of_ne_nil _ Nat.toDigits_ne_nil]

/-- A natural number is written as a whole part. -/
theorem isWhole_decimalChars (n : Nat) : IsWhole (decimalChars n) := by
  refine ⟨isDigits_decimalChars n, fun h => ?_⟩
  rcases Nat.eq_zero_or_pos n with rfl | hn
  · exact Nat.toDigits_zero 10
  · exact absurd h (head?_decimalChars_ne hn)

namespace Numeral

theorem takeWhile_isDigit {ds : List Char} (h : IsDigits ds) : ds.takeWhile Char.isDigit = ds :=
  List.takeWhile_eq_self_iff.mpr h.all

/-- A whole part is read to its end. -/
theorem scanWhole_eq {ds : List Char} (h : IsWhole ds) : scanWhole ds = some (ds, []) := by
  obtain ⟨c, cs, rfl⟩ := List.exists_cons_of_ne_nil h.isDigits.ne_nil
  by_cases hzero : c = '0'
  · have halone := h.zero_alone (by rw [hzero]; rfl)
    rw [halone]
    rfl
  · have hc : c.isDigit = true := h.isDigits.all c List.mem_cons_self
    have hall : (c :: cs).dropWhile Char.isDigit = [] :=
      List.dropWhile_eq_nil_iff.mpr h.isDigits.all
    simp only [scanWhole, hzero, hc, if_true, if_false, hall, takeWhile_isDigit h.isDigits]

/-- An integer text, with or without an exponent behind it. -/
theorem scan_whole (negative : Bool) {ds exponent digits : List Char} {exponentNegative : Bool}
    (hds : IsWhole ds) (hstop : ∀ c ∈ exponent.head?, c.isDigit = false)
    (hfraction : scanFraction exponent = some ([], exponent))
    (hexponent : scanExponent exponent = some (exponentNegative, digits, [])) :
    scan ((if negative then ['-'] else []) ++ ds ++ exponent)
      = some (⟨negative, ds, [], exponentNegative, digits⟩, []) := by
  have hwhole : scanWhole (ds ++ exponent) = some (ds, exponent) :=
    scanWhole_append hstop (scanWhole_eq hds)
  refine scan_eq_some_iff.mpr ⟨?_, exponent, exponent, ?_, hfraction, hexponent⟩
  · -- A digit is not a sign.
    obtain ⟨c, cs, rfl⟩ := List.exists_cons_of_ne_nil hds.isDigits.ne_nil
    have hc : c ≠ '-' := by
      rintro rfl
      exact absurd (hds.isDigits.all '-' List.mem_cons_self) (by decide)
    cases negative <;> simp [hc]
  · rw [← hwhole]
    cases negative <;> rfl

end Numeral

/-! ### Doubles -/

/-- A quotient that is whole is not rounded. -/
theorem roundQuotient_mul (q : Nat) {den : Nat} (hden : 0 < den) :
    roundQuotient (q * den) den = q := by
  rw [roundQuotient, Nat.mul_mod_left, if_pos (by omega)]
  exact Nat.mul_div_cancel q hden

namespace Double

theorem size_eq (x : Double) : x.size = x.mantissa * 2 ^ x.scale := Nat.shiftLeft_eq ..

/-- The scale of a double is found again from its size. -/
theorem log2_size (x : Double) : Nat.log2 x.size - 52 = x.scale := by
  have hlt := x.mantissa_lt
  rw [size_eq]
  rcases Nat.eq_zero_or_pos x.mantissa with hzero | hpos
  · have hscale : x.scale = 0 := x.normal.resolve_right (by omega)
    rw [hzero, hscale]
    rfl
  have hne : x.mantissa * 2 ^ x.scale ≠ 0 := (Nat.mul_pos hpos (Nat.two_pow_pos _)).ne'
  -- Either the scale is the smallest one, or the mantissa has all its bits.
  rcases x.normal with hscale | hnormal
  · have hlog : Nat.log2 (x.mantissa * 2 ^ x.scale) < 53 := by
      rw [Nat.log2_lt hne, hscale]
      omega
    omega
  · have hlog : Nat.log2 (x.mantissa * 2 ^ x.scale) = 52 + x.scale := by
      rw [Nat.log2_eq_iff hne, Nat.add_right_comm, pow_add, pow_add 2 (52 + 1)]
      exact ⟨Nat.mul_le_mul_right _ hnormal,
        Nat.mul_lt_mul_of_pos_right hlt (Nat.two_pow_pos _)⟩
    omega

theorem ofParts?_self (x : Double) : ofParts? x.negative x.mantissa x.scale = some x :=
  dif_pos ⟨x.mantissa_lt, x.normal, x.scale_le⟩

/-- The exact value of a double is rounded to that double. -/
theorem ofRatio?_size (x : Double) {num den : Nat} (hden : 0 < den)
    (hvalue : num * 2 ^ 1074 = x.size * den) : ofRatio? x.negative num den = some x := by
  -- Both the scale and the mantissa are found again, so nothing is rounded.
  have hscale : Nat.log2 (x.size * den / den) - 52 = x.scale := by
    rw [Nat.mul_div_cancel _ hden, log2_size]
  have hmantissa : roundQuotient (x.size * den) (den <<< x.scale) = x.mantissa := by
    rw [size_eq, Nat.shiftLeft_eq, Nat.mul_assoc, Nat.mul_comm (2 ^ x.scale)]
    exact roundQuotient_mul _ (Nat.mul_pos hden (Nat.two_pow_pos _))
  have hlt := x.mantissa_lt
  simp only [ofRatio?, Nat.shiftLeft_eq num, hvalue, hscale, hmantissa]
  rw [if_neg (by omega)]
  exact ofParts?_self x

theorem size_pos (x : Double) (hx : x.mantissa ≠ 0) : 0 < x.size := by
  rw [size_eq]
  exact Nat.mul_pos (Nat.pos_of_ne_zero hx) (Nat.two_pow_pos _)

/-- A fraction over a power of two is one over a power of ten.  The exponent is a variable, so
    that nothing computes its powers. -/
theorem ofDecimal?_exact (x : Double) (hx : x.mantissa ≠ 0) {k : Nat} (hk : k = 1074) :
    ofDecimal? x.negative (x.size * Nat.pow 5 k) (-(k : Int)) = some x := by
  have hsize := x.size_pos hx
  have hne : x.size * Nat.pow 5 k ≠ 0 := (Nat.mul_pos hsize (Nat.pow_pos (by decide))).ne'
  have hlog : k ≤ Nat.log2 (x.size * Nat.pow 5 k) := by
    rw [Nat.le_log2 hne]
    calc 2 ^ k ≤ 5 ^ k := Nat.pow_le_pow_left (by decide) k
      _ ≤ x.size * 5 ^ k := Nat.le_mul_of_pos_left _ hsize
  -- `5 ^ k / 10 ^ k` is `1 / 2 ^ k`.
  have hvalue : x.size * Nat.pow 5 k * 2 ^ k = x.size * tenTo k := by
    show x.size * 5 ^ k * 2 ^ k = x.size * (5 * 2) ^ k
    rw [Nat.mul_assoc, ← mul_pow]
  have hten : 0 < tenTo k := Nat.pow_pos (by decide)
  rw [ofDecimal?, if_neg hne, if_neg (by omega), if_neg (by omega), if_neg (by omega),
    Int.neg_neg, Int.toNat_natCast]
  exact x.ofRatio?_size hten (hk ▸ hvalue)

/-- All digits of a double read back as that double. -/
theorem ofChars?_exactChars (x : Double) (hx : x.mantissa ≠ 0) :
    Number.ofChars? x.exactChars = some (.double x) := by
  -- The digits are too many to be looked at.
  have hread : ∀ n, Double.ofDecimal? x.negative n (-(1074 : Nat)) = some x →
      Number.ofChars? ((if x.negative then ['-'] else []) ++ decimalChars n
        ++ ['e', '-', '1', '0', '7', '4']) = some (.double x) := by
    intro n hn
    have hstop : ∀ c ∈ ['e', '-', '1', '0', '7', '4'].head?, c.isDigit = false := by
      intro c hc
      obtain rfl := Option.some.inj hc
      rfl
    have hexponent : Numeral.scanExponent ['e', '-', '1', '0', '7', '4']
        = some (true, ['1', '0', '7', '4'], []) := rfl
    have hdouble : Numeral.double? ⟨x.negative, decimalChars n, [], true, ['1', '0', '7', '4']⟩
        = some x := by
      rw [Numeral.double?, List.append_nil, digitsValue_decimalChars]
      exact hn
    rw [Number.ofChars?,
      Numeral.scan_whole x.negative (isWhole_decimalChars n) hstop rfl hexponent]
    simp only [Numeral.value?, hdouble]
    rfl
  refine hread _ ?_
  generalize hk : 1074 = k
  exact x.ofDecimal?_exact hx hk.symm

/-- A double without a mantissa is one of the two zeros. -/
theorem eq_zero_of_mantissa (x : Double) (hx : x.mantissa = 0) : x = zero x.negative := by
  have hscale : x.scale = 0 := x.normal.resolve_right (by omega)
  cases x
  simp only at hx hscale
  subst hx hscale
  rfl

/-- The text of a double stands for that double: a candidate is taken only if it does, and all
    digits together do. -/
theorem ofChars?_chars (x : Double) : Number.ofChars? x.chars = some (.double x) := by
  rw [chars]
  split
  next hx =>
    rw [x.eq_zero_of_mantissa hx]
    cases x.negative <;> decide +kernel
  next hx =>
    cases hfind : x.candidates.find? fun t => Number.ofChars? t = some (.double x) with
    | none => exact x.ofChars?_exactChars hx
    | some t => simpa using List.find?_some hfind

end Double

/-! ### All numbers -/

/-- The text of an integer stands for that integer. -/
theorem Number.ofChars?_intChars (n : Int)
    (fits : -9223372036854775808 ≤ n ∧ n < 18446744073709551616) :
    Number.ofChars? (intChars n) = some (.int n fits) := by
  have hchars : intChars n
      = (if n < 0 then ['-'] else []) ++ decimalChars n.natAbs ++ [] := by
    rw [intChars, List.append_nil]
    split <;> rfl
  have hscan : Numeral.scan
      ((if decide (n < 0) = true then ['-'] else []) ++ decimalChars n.natAbs ++ [])
        = some (⟨decide (n < 0), decimalChars n.natAbs, [], false, []⟩, []) :=
    Numeral.scan_whole _ (isWhole_decimalChars n.natAbs) (by simp) rfl rfl
  simp only [decide_eq_true_eq] at hscan
  -- The sign is read off the text, and the digits give the absolute value.
  have hint : Numeral.int? ⟨decide (n < 0), decimalChars n.natAbs, [], false, []⟩
      = some (.int n fits) := by
    have hvalue : (if decide (n < 0) = true then -(n.natAbs : Int) else n.natAbs) = n := by
      simp only [decide_eq_true_eq]
      split <;> omega
    simp only [Numeral.int?, List.isEmpty_nil, Bool.and_self, if_true, digitsValue_decimalChars,
      hvalue]
    exact dif_pos ⟨fits, fun h => ne_of_lt (of_decide_eq_true h)⟩
  rw [Number.ofChars?, hchars, hscan]
  simp only [Numeral.value?, hint]

/-- **Numbers read back.**  The text of a number stands for that number. -/
theorem Number.ofChars?_chars (n : Number) : Number.ofChars? n.chars = some n := by
  cases n with
  | int n fits => exact Number.ofChars?_intChars n fits
  | double x => exact x.ofChars?_chars

/-- The scan of the text of a number takes all of it. -/
theorem Number.scan_chars (n : Number) :
    ∃ m : Numeral, Numeral.scan n.chars = some (m, []) ∧ m.value? = some n := by
  have h := n.ofChars?_chars
  unfold Number.ofChars? at h
  split at h
  next m hscan => exact ⟨m, hscan, h⟩
  · exact absurd h (by simp)

end QueryGraph
