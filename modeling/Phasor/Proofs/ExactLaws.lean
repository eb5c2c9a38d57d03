import Phasor.Proofs.Alternating
import Phasor.Proofs.Canonical
import Phasor.Proofs.Conjugation

/-!
Laws of complex arithmetic that no rounding disturbs. Sums and products do not depend on the order
of their operands, for the window of a sum is the same from both sides; and a number that fits is
not changed by zero or one. A quotient of a number by itself is one, since numerator and divisor are
the same rounded sum of squares, and that sum vanishes for zero only: a square never does, and a sum
of two never loses both.
-/

namespace Dyadic

theorem addTo_comm (p : Nat) (x y : Dyadic) : x.addTo p y = y.addTo p x := by
  rw [addTo_eq_roundTo_windowSum, windowSum_comm, ← addTo_eq_roundTo_windowSum]

theorem roundTo_of_fits {p : Nat} (hp : 0 < p) {x : Dyadic} (hx : x.Fits p) : x.roundTo p = x :=
  (nearest_roundTo hp x).unique (.of_eq hx rfl)

theorem divTo_one {p : Nat} (hp : 0 < p) {x : Dyadic} (hx : x.Fits p) : x.divTo p 1 = x := by
  apply (nearest_divTo hp x (by decide)).unique
  apply Nearest.of_eq hx
  rw [toReal_one, div_one]

theorem divTo_self {p : Nat} (hp : 0 < p) {x : Dyadic} (hx : x ≠ 0) : x.divTo p x = 1 := by
  apply (nearest_divTo hp x hx).unique
  apply Nearest.of_eq (fits_one hp)
  rw [toReal_one, div_self (toReal_ne_zero.mpr hx)]

theorem addTo_neg_self {p : Nat} (hp : 0 < p) {x : Dyadic} (hx : x.Fits p) : x.addTo p (-x) = 0 := by
  rw [addTo_eq_zero_iff hp hx hx.neg, toReal_neg, add_neg_cancel]

theorem fits_mulTo {p : Nat} (hp : 0 < p) (x y : Dyadic) : (x.mulTo p y).Fits p :=
  fits_roundTo hp _

theorem mulTo_self_nonneg {p : Nat} (hp : 0 < p) (x : Dyadic) : 0 ≤ (x.mulTo p x).toReal := by
  have hle := (nearest_mulTo hp x x).ge (fits_zero p) (by rw [toReal_zero]; exact mul_self_nonneg _)
  rwa [toReal_zero] at hle

theorem mulTo_self_eq_zero {p : Nat} (hp : 0 < p) {x : Dyadic} (h : (x.mulTo p x).toReal = 0) : x = 0 := by
  by_contra hx
  have hpos := (nearest_mulTo hp x x).pos hp (mul_self_pos.mpr (toReal_ne_zero.mpr hx))
  exact hpos.ne' h

theorem addTo_mulTo_self_eq_zero_iff {p : Nat} (hp : 0 < p) (x y : Dyadic) :
    (x.mulTo p x).addTo p (y.mulTo p y) = 0 ↔ x = 0 ∧ y = 0 := by
  rw [addTo_eq_zero_iff hp (fits_mulTo hp x x) (fits_mulTo hp y y)]
  constructor
  · intro hsum
    have hx := mulTo_self_nonneg hp x
    have hy := mulTo_self_nonneg hp y
    exact ⟨mulTo_self_eq_zero hp (by linarith), mulTo_self_eq_zero hp (by linarith)⟩
  · rintro ⟨rfl, rfl⟩
    rw [mulTo, Dyadic.mul_zero, roundTo_zero, toReal_zero, add_zero]

end Dyadic

namespace Phasor

namespace BigFloat

protected theorem add_comm (x y : BigFloat) : x + y = y + x := by
  cases x with
  | nan => cases y <;> rfl
  | num x =>
    cases y with
    | nan => rfl
    | num y => exact congrArg num (Dyadic.addTo_comm precision x y)

theorem num_ne_zero {x : Dyadic} (hx : x ≠ 0) : num x ≠ 0 :=
  fun h => hx (num.inj h)

theorem divTo_num (w : Nat) (x : Dyadic) {y : Dyadic} (hy : y ≠ 0) : divTo w (num x) (num y) = num (x.divTo w y) :=
  if_neg (num_ne_zero hy)

theorem num_div_num (x : Dyadic) {y : Dyadic} (hy : y ≠ 0) : num x / num y = num (x.divTo precision y) :=
  divTo_num precision x hy

section Fits

variable {x : BigFloat} (hx : x.Fits precision)

include hx

theorem roundTo_of_fits : x.roundTo precision = x := by
  cases x with
  | nan => rfl
  | num x => exact congrArg num (Dyadic.roundTo_of_fits precision_pos hx)

protected theorem zero_add : 0 + x = x := by
  cases x with
  | nan => rfl
  | num x => exact roundTo_of_fits hx

protected theorem add_zero : x + 0 = x := by
  rw [BigFloat.add_comm, BigFloat.zero_add hx]

protected theorem sub_zero : x - 0 = x := by
  cases x with
  | nan => rfl
  | num x => exact BigFloat.add_zero hx

protected theorem mul_one : x * 1 = x := by
  cases x with
  | nan => rfl
  | num x =>
    show num ((x * 1).roundTo precision) = num x
    rw [Dyadic.mul_one, Dyadic.roundTo_of_fits precision_pos hx]

protected theorem div_one : x / 1 = x := by
  cases x with
  | nan => rfl
  | num x =>
    show num x / num 1 = num x
    rw [num_div_num x (by decide), Dyadic.divTo_one precision_pos hx]

end Fits

theorem num_mul_zero (x : Dyadic) : num x * 0 = 0 := by
  show num ((x * 0).roundTo precision) = num 0
  rw [Dyadic.mul_zero, Dyadic.roundTo_zero]

theorem num_sub_self {x : Dyadic} (hx : x.Fits precision) : num x - num x = 0 :=
  congrArg num (Dyadic.addTo_neg_self precision_pos hx)

end BigFloat

namespace BigComplex

open BigFloat (num precision num_mul_zero num_sub_self num_div_num)

theorem exists_num_of_isNaN_eq_false {z : BigComplex} (h : z.isNaN = false) : ∃ a b, z = ⟨num a, num b⟩ := by
  obtain ⟨re, im⟩ := z
  cases re with
  | nan => cases h
  | num a =>
    cases im with
    | nan => cases h
    | num b => exact ⟨a, b, rfl⟩

protected theorem add_comm (z w : BigComplex) : z + w = w + z := by
  show (⟨z.re + w.re, z.im + w.im⟩ : BigComplex) = ⟨w.re + z.re, w.im + z.im⟩
  rw [BigFloat.add_comm z.re, BigFloat.add_comm z.im]

protected theorem mul_comm (z w : BigComplex) : z * w = w * z := by
  show (⟨z.re * w.re - z.im * w.im, z.re * w.im + z.im * w.re⟩ : BigComplex) =
    ⟨w.re * z.re - w.im * z.im, w.re * z.im + w.im * z.re⟩
  rw [BigFloat.mul_comm w.re z.re, BigFloat.mul_comm w.im z.im, BigFloat.mul_comm w.re z.im,
    BigFloat.mul_comm w.im z.re, BigFloat.add_comm]

theorem sumSquares_eq_zero_iff (a b : Dyadic) : num a * num a + num b * num b = 0 ↔ a = 0 ∧ b = 0 := by
  rw [← Dyadic.addTo_mulTo_self_eq_zero_iff BigFloat.precision_pos a b]
  exact ⟨BigFloat.num.inj, congrArg num⟩

section Fits

variable {a b : Dyadic} (ha : (num a).Fits precision) (hb : (num b).Fits precision)

include ha hb

theorem sub_self_of_fits : (⟨num a, num b⟩ : BigComplex) - ⟨num a, num b⟩ = 0 := by
  show (⟨num a - num a, num b - num b⟩ : BigComplex) = ⟨0, 0⟩
  rw [num_sub_self ha, num_sub_self hb]

theorem mul_one_of_fits : (⟨num a, num b⟩ : BigComplex) * 1 = ⟨num a, num b⟩ := by
  show (⟨num a * 1 - num b * 0, num a * 0 + num b * 1⟩ : BigComplex) = ⟨num a, num b⟩
  rw [num_mul_zero, num_mul_zero, BigFloat.mul_one ha, BigFloat.mul_one hb, BigFloat.sub_zero ha, BigFloat.zero_add hb]

theorem div_one_of_fits : (⟨num a, num b⟩ : BigComplex) / 1 = ⟨num a, num b⟩ := by
  have hdivisor : (1 : BigFloat) * 1 + 0 * 0 = 1 := by decide
  show div ⟨num a, num b⟩ ⟨1, 0⟩ = ⟨num a, num b⟩
  simp only [div, hdivisor, num_mul_zero, BigFloat.mul_one ha, BigFloat.mul_one hb]
  rw [if_neg (by decide), BigFloat.add_zero ha, BigFloat.sub_zero hb, BigFloat.div_one ha, BigFloat.div_one hb]

end Fits

theorem div_self_of_ne_zero {a b : Dyadic} (h : ¬ (a = 0 ∧ b = 0)) :
    (⟨num a, num b⟩ : BigComplex) / ⟨num a, num b⟩ = 1 := by
  -- Numerator and divisor are rounded alike, and the two products of the imaginary part cancel.
  have hne := (sumSquares_eq_zero_iff a b).not.mpr h
  obtain ⟨d, hd⟩ : ∃ d, num a * num a + num b * num b = num d := ⟨_, rfl⟩
  have hd0 : d ≠ 0 := by
    rintro rfl
    exact hne hd
  have hcross : num b * num a - num a * num b = 0 := by
    rw [BigFloat.mul_comm (num b)]
    exact num_sub_self (Dyadic.fits_mulTo BigFloat.precision_pos a b)
  show div ⟨num a, num b⟩ ⟨num a, num b⟩ = ⟨1, 0⟩
  simp only [div, hd, hcross]
  rw [if_neg (by simpa [BigFloat.isZero] using BigFloat.num_ne_zero hd0), num_div_num d hd0,
    Dyadic.divTo_self BigFloat.precision_pos hd0]
  show (⟨1, num 0 / num d⟩ : BigComplex) = ⟨1, 0⟩
  rw [num_div_num 0 hd0, Dyadic.zero_divTo]
  rfl

end BigComplex

end Phasor
