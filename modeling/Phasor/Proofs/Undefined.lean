import Phasor.Proofs.ExactLaws
import Phasor.Proofs.Quadrant

/-!
Where results are undefined. A quotient by zero and the root of a negative number are, and every
operation on an undefined value. The logarithm, the angle of a point and the complex quotient divide
by numbers that they have computed themselves; `Stepwise` computes the first two by operations each
of which can be undefined, and none of them is: what is divided by is a sum of a positive number and
another that is not negative, and such a sum is positive whatever its window cuts off.
-/

namespace Dyadic

theorem roundAt_nonneg (f : Int) {x : Dyadic} (hx : 0 ≤ x.toReal) : 0 ≤ (x.roundAt f).toReal := by
  obtain ⟨j, hj⟩ := exists_roundAt_eq f x
  have hnear := (abs_le.mp (abs_roundAt_sub_le f x)).1
  have hf : (0 : ℝ) < 2 ^ f := by positivity
  rw [hj] at hnear ⊢
  have hj' : -1 < (j : ℝ) := by
    apply lt_of_mul_lt_mul_right _ hf.le
    linarith
  have hj'' : 0 ≤ j := Int.lt_add_one_iff.mp (by exact_mod_cast (by linarith : (0 : ℝ) < j + 1))
  have : (0 : ℝ) ≤ j := by exact_mod_cast hj''
  positivity

theorem roundAt_pos {f : Int} {x : Dyadic} (hx : 0 < x.toReal) (hf : f < x.top) : 0 < (x.roundAt f).toReal := by
  have hlead := two_zpow_pred_top_le_toReal hx
  have hplace : (2 : ℝ) ^ f ≤ 2 ^ (x.top - 1) := zpow_le_zpow_right₀ (by norm_num) (by omega)
  have hnear := (abs_le.mp (abs_roundAt_sub_le f x)).1
  have hpos : (0 : ℝ) < 2 ^ f := by positivity
  linarith

theorem addTo_pos {p : Nat} (hp : 0 < p) {x y : Dyadic} (hx : 0 < x.toReal) (hy : 0 ≤ y.toReal) :
    0 < (x.addTo p y).toReal := by
  -- The larger operand is not lost to the window, whatever the widths of the two.
  rw [addTo_eq_roundTo_windowSum]
  apply (nearest_roundTo hp _).pos hp
  unfold windowSum
  rw [if_neg (toReal_ne_zero.mp hx.ne')]
  split
  · exact hx
  · rename_i hy0
    have hy' : 0 < y.toReal := lt_of_le_of_ne hy (Ne.symm (toReal_ne_zero.mpr hy0))
    rw [toReal_add]
    rcases le_total x.top y.top with htop | htop
    · have hfloor : windowFloor p x y < y.top := by
        unfold windowFloor
        omega
      exact add_pos_of_nonneg_of_pos (roundAt_nonneg _ hx.le) (roundAt_pos hy' hfloor)
    · have hfloor : windowFloor p x y < x.top := by
        unfold windowFloor
        omega
      exact add_pos_of_pos_of_nonneg (roundAt_pos hx hfloor) (roundAt_nonneg _ hy)

theorem shiftRight_eq_shiftLeft (x : Dyadic) (k : Int) : x >>> k = x <<< (-k) := by
  rw [← toReal_inj, toReal_shiftRight, toReal_shiftLeft, zpow_neg, div_eq_inv_mul]

end Dyadic

namespace Phasor

namespace BigFloat

open Dyadic (scaled addTo_pos toReal_zero toReal_one toReal_pos toReal_ne_zero toReal_abs)

section Operations

theorem map₂_eq_nan_iff (f : Dyadic → Dyadic → Dyadic) (x y : BigFloat) : map₂ f x y = nan ↔ x = nan ∨ y = nan := by
  cases x <;> cases y <;> simp [map₂]

variable (x y : BigFloat)

theorem add_eq_nan_iff : x + y = nan ↔ x = nan ∨ y = nan :=
  map₂_eq_nan_iff (Dyadic.addTo precision) x y

theorem sub_eq_nan_iff : x - y = nan ↔ x = nan ∨ y = nan :=
  map₂_eq_nan_iff (Dyadic.subTo precision) x y

theorem mul_eq_nan_iff : x * y = nan ↔ x = nan ∨ y = nan :=
  map₂_eq_nan_iff (Dyadic.mulTo precision) x y

theorem div_eq_nan_iff : x / y = nan ↔ x = nan ∨ y = nan ∨ y = 0 := by
  show divTo precision x y = nan ↔ _
  rw [divTo]
  split
  · rename_i hy
    exact iff_of_true rfl (.inr (.inr hy))
  · rename_i hy
    rw [map₂_eq_nan_iff, or_iff_left hy]

theorem sqrt_eq_nan_iff : x.sqrt = nan ↔ x = nan ∨ x.isNegative = true := by
  rw [sqrt, sqrtTo]
  split
  · rename_i hx
    exact iff_of_true rfl (.inr hx)
  · rename_i hx
    rw [or_iff_left hx]
    cases x <;> simp [map]

theorem log_eq_nan_iff : x.log = nan ↔ x = nan ∨ x.isPositive = false := by
  cases x with
  | nan => exact iff_of_true rfl (.inl rfl)
  | num x =>
    have hpositive : (num x).isPositive = false ↔ x.mantissa ≤ 0 := by simp [isPositive]
    rw [hpositive]
    show logTo precision x = nan ↔ _
    rw [logTo]
    split
    · rename_i hx
      exact iff_of_true rfl (.inr hx)
    · rename_i hx
      split
      · exact iff_of_false (by decide) (by simpa using hx)
      · simpa using hx

theorem atan2_eq_nan_iff : atan2 y x = nan ↔ y = nan ∨ x = nan :=
  map₂_eq_nan_iff (atan2To precision) y x

end Operations

namespace Stepwise

/-- Next to a sum that is not zero an undefined term does not matter, and next to an undefined sum
only zero does not. -/
def negligible (w : Nat) : BigFloat → BigFloat → Bool
  | num term, num sum => Series.negligible w term sum
  | num term, nan => term = 0
  | nan, num sum => sum ≠ 0
  | nan, nan => false

instance : Arithmetic BigFloat where
  ofDyadic := num
  mulTo := mulTo
  divTo := divTo

def sumFrom (s : Series BigFloat) (w : Nat) : (limit n : Nat) → (power sum : BigFloat) → BigFloat
  | 0, _, _, sum => sum
  | limit + 1, n, power, sum =>
    let power := s.step n power
    let term := s.term n power
    if negligible w term sum then sum
    else sumFrom s w limit (n + 1) power (sum.addTo w term)

structure Follows (s : Series BigFloat) (t : Series Dyadic) : Prop where
  step : ∀ n power, 1 ≤ n → s.step n (num power) = num (t.step n power)
  term : ∀ n power, 1 ≤ n → s.term n (num power) = num (t.term n power)

theorem Follows.sumFrom_eq {s : Series BigFloat} {t : Series Dyadic} (h : Follows s t) (w limit : Nat) {n : Nat}
    (hn : 1 ≤ n) (power sum : Dyadic) :
    sumFrom s w limit n (num power) (num sum) = num (t.sumFrom w limit n power sum).value := by
  induction limit generalizing n power sum with
  | zero => rfl
  | succ limit ih =>
    rw [sumFrom, Series.sumFrom]
    simp only [h.step n power hn, h.term n _ hn, negligible]
    split
    · rfl
    · exact ih (by omega) _ _

theorem follows_oddQuotients (w : Nat) (y : Dyadic) : Follows (.oddQuotients w (num y)) (.oddQuotients w y) where
  step _ _ _ := rfl
  term n power _ := divTo_num w power (Series.natCast_ne_zero (Nat.succ_pos (2 * n)))

theorem Follows.alternated {s : Series BigFloat} {t : Series Dyadic} (h : Follows s t) :
    Follows s.alternated t.alternated where
  step n power hn := by
    rw [Series.alternated_step, h.step n power hn]
    rfl
  term := h.term

theorem follows_halves (w : Nat) : Follows (.halves w) (.halves w) where
  step _ _ _ := rfl
  term n _ hn := by
    apply divTo_num w 1
    rw [← toReal_ne_zero, Dyadic.toReal_scaled]
    have : (n : ℝ) ≠ 0 := by exact_mod_cast (by omega : n ≠ 0)
    push_cast
    positivity

def atan (w : Nat) (x : BigFloat) : BigFloat :=
  sumFrom (Series.oddQuotients w (x.mulTo w x)).alternated w Series.termLimit 1 x x

def artanh (w : Nat) (z : BigFloat) : BigFloat :=
  sumFrom (.oddQuotients w (z.mulTo w z)) w (Series.termLimit / 2) 1 z z

def logTwo (w : Nat) : BigFloat :=
  sumFrom (.halves w) w Series.termLimit 1 (num 0) (num 0)

def pi : BigFloat :=
  let w := constantPrecision
  let fifth := atan w (divTo w 1 (num 5))
  let rest := atan w (divTo w 1 (num 239))
  ((fifth.scale 2).subTo w rest).scale 2

def logTo (p : Nat) : BigFloat → BigFloat
  | nan => nan
  | num x =>
    if x.mantissa ≤ 0 then nan
    else if x = 1 then 0
    else
      let w := p + guardDigits
      let e := x.top
      let m := num (x <<< (-e))
      let z := (m.subTo w 1).divTo w (m.addTo w 1)
      ((((logTwo constantPrecision).roundTo w).mulTo w (ofInt e)).addTo w ((artanh w z).scale 1)).roundTo p

def halveAngle (w : Nat) (y : BigFloat) : BigFloat :=
  let root := (addTo w 1 (y.mulTo w y)).sqrtTo w
  y.divTo w (addTo w 1 root)

def atanTo (p : Nat) : BigFloat → BigFloat
  | nan => nan
  | num x =>
    if x = 0 then 0
    else
      let w := p + guardDigits
      let reflect := exceedsOne x.abs
      let y := if reflect then divTo w 1 (num x.abs) else num x.abs
      let angle := (atan w (halveAngle w (halveAngle w y))).scale 2
      let angle := if reflect then ((pi.roundTo w).scale (-1)).subTo w angle else angle
      (if x.mantissa < 0 then -angle else angle).roundTo p

def atan2To (p : Nat) : BigFloat → BigFloat → BigFloat
  | num y, num x =>
    if x = 0 then
      if y = 0 then 0
      else if y.mantissa < 0 then -((pi.roundTo p).scale (-1))
      else (pi.roundTo p).scale (-1)
    else
      let w := p + guardDigits
      let angle := atanTo w ((num y).divTo w (num x))
      let angle :=
        if 0 < x.mantissa then angle
        else if y.mantissa < 0 then angle.subTo w (pi.roundTo w)
        else angle.addTo w (pi.roundTo w)
      angle.roundTo p
  | _, _ => nan

theorem sqrtTo_num (w : Nat) {x : Dyadic} (hx : 0 ≤ x.mantissa) : sqrtTo w (num x) = num (x.sqrtTo w) :=
  if_neg (by simpa [isNegative] using hx)

theorem atan_num (w : Nat) (x : Dyadic) : atan w (num x) = num (Series.atan w x).value :=
  (follows_oddQuotients w (x.mulTo w x)).alternated.sumFrom_eq w Series.termLimit le_rfl x x

theorem artanh_num (w : Nat) (z : Dyadic) : artanh w (num z) = num (Series.artanh w z).value :=
  (follows_oddQuotients w (z.mulTo w z)).sumFrom_eq w (Series.termLimit / 2) le_rfl z z

theorem logTwo_eq (w : Nat) : logTwo w = num (Series.logTwo w).value :=
  (follows_halves w).sumFrom_eq w Series.termLimit le_rfl 0 0

theorem logTwo_constantPrecision : logTwo constantPrecision = num logTwoWide := by
  rw [logTwo_eq, logTwoWide]

theorem pi_eq : pi = num piWide := by
  have hfifth : divTo constantPrecision 1 (num 5) = num (Dyadic.divTo constantPrecision 1 5) :=
    divTo_num constantPrecision 1 (by decide)
  have hrest : divTo constantPrecision 1 (num 239) = num (Dyadic.divTo constantPrecision 1 239) :=
    divTo_num constantPrecision 1 (by decide)
  simp only [pi, piWide, hfifth, hrest, atan_num]
  rfl

theorem halfPi_eq (p : Nat) : ((num piWide).roundTo p).scale (-1) = num (piTo p >>> (1 : Int)) := by
  rw [Dyadic.shiftRight_eq_shiftLeft]
  rfl

theorem logTo_num (p : Nat) (x : Dyadic) : logTo p (num x) = BigFloat.logTo p x := by
  rw [logTo, BigFloat.logTo]
  split
  · rfl
  · rename_i hx
    split
    · rfl
    · have hw : 0 < p + guardDigits := Nat.add_pos_right p (by decide)
      have hpos : 0 < (x <<< (-x.top)).toReal := by
        rw [Dyadic.toReal_shiftLeft]
        exact mul_pos (by positivity) ((toReal_pos x).mpr (by omega))
      have hdivisor := addTo_pos hw hpos (y := 1) (by rw [toReal_one]; exact zero_le_one)
      have hquot : divTo (p + guardDigits) (subTo (p + guardDigits) (num (x <<< (-x.top))) 1)
          (addTo (p + guardDigits) (num (x <<< (-x.top))) 1) = num _ :=
        divTo_num (p + guardDigits) ((x <<< (-x.top)).subTo (p + guardDigits) 1) (toReal_ne_zero.mp hdivisor.ne')
      simp only [hquot, artanh_num, logTwo_constantPrecision]
      rfl

theorem halveAngle_num {w : Nat} (hw : 0 < w) (y : Dyadic) : halveAngle w (num y) = num (BigFloat.halveAngle w y) := by
  have hone : 0 < (1 : Dyadic).toReal := by rw [toReal_one]; exact one_pos
  have hsquares := addTo_pos hw hone (Dyadic.mulTo_self_nonneg hw y)
  have hroot : sqrtTo w (addTo w 1 (mulTo w (num y) (num y))) = num ((Dyadic.addTo w 1 (y.mulTo w y)).sqrtTo w) :=
    sqrtTo_num w ((Dyadic.toReal_pos _).mp hsquares).le
  have hroot_nonneg : 0 ≤ ((Dyadic.addTo w 1 (y.mulTo w y)).sqrtTo w).toReal := by
    have hge := (Dyadic.nearest_sqrtTo hw ((toReal_pos _).mp hsquares).le).ge (Dyadic.fits_zero w) (by
      rw [toReal_zero]
      exact Real.sqrt_nonneg _)
    rwa [toReal_zero] at hge
  simp only [halveAngle, hroot]
  exact divTo_num w y (toReal_ne_zero.mp (addTo_pos hw hone hroot_nonneg).ne')

theorem atanTo_num (p : Nat) (x : Dyadic) : atanTo p (num x) = num (BigFloat.atanTo p x) := by
  rw [atanTo, BigFloat.atanTo]
  split
  · rfl
  · rename_i hx
    have hw : 0 < p + guardDigits := Nat.add_pos_right p (by decide)
    have habs : x.abs ≠ 0 := by
      rw [← toReal_ne_zero, toReal_abs]
      exact abs_ne_zero.mpr (toReal_ne_zero.mpr hx)
    have hinv : divTo (p + guardDigits) 1 (num x.abs) = num (Dyadic.divTo (p + guardDigits) 1 x.abs) :=
      divTo_num (p + guardDigits) 1 habs
    simp only [hinv, pi_eq, halfPi_eq]
    split <;> split <;> simp only [halveAngle_num hw, atan_num] <;> rfl

theorem atan2To_num (p : Nat) (y x : Dyadic) : atan2To p (num y) (num x) = num (BigFloat.atan2To p y x) := by
  rw [atan2To, BigFloat.atan2To, pi_eq, halfPi_eq]
  split
  · split
    · rfl
    · split <;> rfl
  · rename_i hx
    simp only [divTo_num _ y hx, atanTo_num]
    split
    · rfl
    · split <;> rfl

end Stepwise

theorem log_eq_stepwise (x : BigFloat) : x.log = Stepwise.logTo precision x := by
  cases x with
  | nan => rfl
  | num x => exact (Stepwise.logTo_num precision x).symm

theorem atan2_eq_stepwise (y x : BigFloat) : atan2 y x = Stepwise.atan2To precision y x := by
  cases y with
  | nan => rfl
  | num y =>
    cases x with
    | nan => rfl
    | num x => exact (Stepwise.atan2To_num precision y x).symm

end BigFloat

namespace BigComplex

open BigFloat (num add_eq_nan_iff sub_eq_nan_iff mul_eq_nan_iff div_eq_nan_iff)

variable (z w : BigComplex)

theorem isNaN_iff : z.isNaN = true ↔ z.re = .nan ∨ z.im = .nan := by
  obtain ⟨re, im⟩ := z
  cases re <;> cases im <;> simp [isNaN, BigFloat.isNaN]

theorem mul_re_eq_nan_iff : (z * w).re = .nan ↔ z.isNaN = true ∨ w.isNaN = true := by
  rw [isNaN_iff, isNaN_iff]
  show z.re * w.re - z.im * w.im = .nan ↔ _
  rw [sub_eq_nan_iff, mul_eq_nan_iff, mul_eq_nan_iff]
  tauto

theorem mul_im_eq_nan_iff : (z * w).im = .nan ↔ z.isNaN = true ∨ w.isNaN = true := by
  rw [isNaN_iff, isNaN_iff]
  show z.re * w.im + z.im * w.re = .nan ↔ _
  rw [add_eq_nan_iff, mul_eq_nan_iff, mul_eq_nan_iff]
  tauto

theorem sumSquares_eq_nan_iff : w.re * w.re + w.im * w.im = .nan ↔ w.re = .nan ∨ w.im = .nan := by
  rw [add_eq_nan_iff, mul_eq_nan_iff, mul_eq_nan_iff, or_self, or_self]

theorem sumSquares_eq_zero_iff_eq_zero : w.re * w.re + w.im * w.im = 0 ↔ w = 0 := by
  by_cases hnan : w.isNaN = true
  · apply iff_of_false
    · rw [(sumSquares_eq_nan_iff w).mpr ((isNaN_iff w).mp hnan)]
      decide
    · rintro rfl
      cases hnan
  · obtain ⟨a, b, rfl⟩ := exists_num_of_isNaN_eq_false (Bool.eq_false_of_not_eq_true hnan)
    rw [sumSquares_eq_zero_iff]
    constructor
    · rintro ⟨rfl, rfl⟩
      rfl
    · intro h
      cases h
      exact ⟨rfl, rfl⟩

theorem div_of_ne_zero {w : BigComplex} (hw : w ≠ 0) : z / w =
    ⟨(z.re * w.re + z.im * w.im) / (w.re * w.re + w.im * w.im),
      (z.im * w.re - z.re * w.im) / (w.re * w.re + w.im * w.im)⟩ :=
  if_neg (by simpa [BigFloat.isZero] using (sumSquares_eq_zero_iff_eq_zero w).not.mpr hw)

theorem div_re_eq_nan_iff : (z / w).re = .nan ↔ w = 0 ∨ z.isNaN = true ∨ w.isNaN = true := by
  by_cases hw : w = 0
  · subst hw
    exact iff_of_true rfl (.inl rfl)
  · rw [div_of_ne_zero z hw, div_eq_nan_iff, add_eq_nan_iff, mul_eq_nan_iff, mul_eq_nan_iff, sumSquares_eq_nan_iff,
      sumSquares_eq_zero_iff_eq_zero, isNaN_iff, isNaN_iff]
    tauto

theorem div_im_eq_nan_iff : (z / w).im = .nan ↔ w = 0 ∨ z.isNaN = true ∨ w.isNaN = true := by
  by_cases hw : w = 0
  · subst hw
    exact iff_of_true rfl (.inl rfl)
  · rw [div_of_ne_zero z hw, div_eq_nan_iff, sub_eq_nan_iff, mul_eq_nan_iff, mul_eq_nan_iff, sumSquares_eq_nan_iff,
      sumSquares_eq_zero_iff_eq_zero, isNaN_iff, isNaN_iff]
    tauto

end BigComplex

open BigFloat (Stepwise.logTo Stepwise.atan2To) in
/-- Real operations are undefined for an undefined operand and besides only for the quotient by
zero, the root of a negative number and the logarithm of a number that is not positive, even if each
operation inside the logarithm and the angle could be undefined by itself. A complex product is
undefined in both parts or in neither, and so is a complex quotient. -/
theorem undefined_exactly_outside_domain (x y : BigFloat) (z w : BigComplex) :
    (x + y = .nan ↔ x = .nan ∨ y = .nan) ∧
    (x - y = .nan ↔ x = .nan ∨ y = .nan) ∧
    (x * y = .nan ↔ x = .nan ∨ y = .nan) ∧
    (x / y = .nan ↔ x = .nan ∨ y = .nan ∨ y = 0) ∧
    (x.sqrt = .nan ↔ x = .nan ∨ x.isNegative = true) ∧
    (x.log = .nan ↔ x = .nan ∨ x.isPositive = false) ∧ x.log = Stepwise.logTo BigFloat.precision x ∧
    (y.atan2 x = .nan ↔ y = .nan ∨ x = .nan) ∧ y.atan2 x = Stepwise.atan2To BigFloat.precision y x ∧
    ((z * w).re = .nan ↔ z.isNaN = true ∨ w.isNaN = true) ∧
    ((z * w).im = .nan ↔ z.isNaN = true ∨ w.isNaN = true) ∧
    ((z / w).re = .nan ↔ w = 0 ∨ z.isNaN = true ∨ w.isNaN = true) ∧
    ((z / w).im = .nan ↔ w = 0 ∨ z.isNaN = true ∨ w.isNaN = true) :=
  ⟨x.add_eq_nan_iff y, x.sub_eq_nan_iff y, x.mul_eq_nan_iff y, x.div_eq_nan_iff y, x.sqrt_eq_nan_iff,
    x.log_eq_nan_iff, x.log_eq_stepwise, x.atan2_eq_nan_iff y, y.atan2_eq_stepwise x,
    z.mul_re_eq_nan_iff w, z.mul_im_eq_nan_iff w, z.div_re_eq_nan_iff w, z.div_im_eq_nan_iff w⟩

end Phasor
