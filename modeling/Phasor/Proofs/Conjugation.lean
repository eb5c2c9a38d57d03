import Phasor.BigComplex
import Phasor.Proofs.Symmetry

namespace Phasor

namespace BigFloat

theorem map₂_neg_neg {f : Dyadic → Dyadic → Dyadic} (hf : ∀ x y, f (-x) (-y) = -f x y) (x y : BigFloat) :
    map₂ f (-x) (-y) = -map₂ f x y := by
  cases x with
  | nan => rfl
  | num x =>
    cases y with
    | nan => rfl
    | num y => exact congrArg num (hf x y)

theorem map₂_neg_left {f : Dyadic → Dyadic → Dyadic} (hf : ∀ x y, f (-x) y = -f x y) (x y : BigFloat) :
    map₂ f (-x) y = -map₂ f x y := by
  cases x with
  | nan => rfl
  | num x =>
    cases y with
    | nan => rfl
    | num y => exact congrArg num (hf x y)

protected theorem neg_neg (x : BigFloat) : - -x = x := by
  cases x with
  | nan => rfl
  | num x => exact congrArg num (Dyadic.neg_neg x)

protected theorem neg_add_neg (x y : BigFloat) : -x + -y = -(x + y) :=
  map₂_neg_neg (Dyadic.addTo_neg precision) x y

protected theorem neg_sub_neg (x y : BigFloat) : -x - -y = -(x - y) :=
  map₂_neg_neg (Dyadic.subTo_neg precision) x y

protected theorem neg_mul (x y : BigFloat) : -x * y = -(x * y) :=
  map₂_neg_left (Dyadic.mulTo_neg_left precision) x y

protected theorem mul_comm (x y : BigFloat) : x * y = y * x := by
  cases x with
  | nan => cases y <;> rfl
  | num x =>
    cases y with
    | nan => rfl
    | num y => exact congrArg num (Dyadic.mulTo_comm precision x y)

protected theorem mul_neg (x y : BigFloat) : x * -y = -(x * y) := by
  rw [BigFloat.mul_comm, BigFloat.neg_mul, BigFloat.mul_comm]

protected theorem neg_mul_neg (x y : BigFloat) : -x * -y = x * y := by
  rw [BigFloat.neg_mul, BigFloat.mul_neg, BigFloat.neg_neg]

protected theorem neg_div (x y : BigFloat) : -x / y = -(x / y) := by
  show divTo precision (-x) y = -divTo precision x y
  rw [divTo, divTo, map₂_neg_left (Dyadic.divTo_neg_left precision)]
  split <;> rfl

theorem neg_eq_zero_iff {x : BigFloat} : -x = 0 ↔ x = 0 := by
  have hzero : -(0 : BigFloat) = 0 := rfl
  constructor
  · intro h
    rw [← BigFloat.neg_neg x, h, hzero]
  · rintro rfl
    exact hzero

theorem isZero_neg (x : BigFloat) : (-x).isZero = x.isZero := by
  simp only [isZero, beq_eq_decide, neg_eq_zero_iff]

theorem atan2_neg {y x : BigFloat} (h : ¬ (x.isNegative = true ∧ y = 0)) : atan2 (-y) x = -atan2 y x := by
  cases x with
  | nan => cases y <;> rfl
  | num x =>
    cases y with
    | nan => rfl
    | num y =>
      apply congrArg num
      by_cases hy : y = 0
      · have hx : 0 ≤ x.mantissa := by
          rw [hy] at h
          exact not_lt.mp fun hneg => h ⟨decide_eq_true hneg, rfl⟩
        show atan2To precision (-y) x = -atan2To precision y x
        rw [hy, Dyadic.neg_zero, atan2To_zero precision hx, Dyadic.neg_zero]
      · exact atan2To_neg precision hy x

end BigFloat

namespace BigComplex

open BigFloat (isZero_neg atan2_neg sinCos_neg)

def IsNegativeReal (z : BigComplex) : Prop := z.re.isNegative = true ∧ z.im = 0

variable (z w : BigComplex)

theorem conj_add : conj (z + w) = conj z + conj w := by
  show (⟨z.re + w.re, -(z.im + w.im)⟩ : BigComplex) = ⟨z.re + w.re, -z.im + -w.im⟩
  rw [BigFloat.neg_add_neg]

theorem conj_sub : conj (z - w) = conj z - conj w := by
  show (⟨z.re - w.re, -(z.im - w.im)⟩ : BigComplex) = ⟨z.re - w.re, -z.im - -w.im⟩
  rw [BigFloat.neg_sub_neg]

theorem conj_mul : conj (z * w) = conj z * conj w := by
  show (⟨z.re * w.re - z.im * w.im, -(z.re * w.im + z.im * w.re)⟩ : BigComplex) =
    ⟨z.re * w.re - -z.im * -w.im, z.re * -w.im + -z.im * w.re⟩
  rw [BigFloat.neg_mul_neg, BigFloat.mul_neg, BigFloat.neg_mul, BigFloat.neg_add_neg]

theorem conj_div : conj (z / w) = conj z / conj w := by
  show conj (div z w) = div (conj z) (conj w)
  simp only [div, conj, BigFloat.neg_mul, BigFloat.mul_neg, BigFloat.neg_neg, BigFloat.neg_sub_neg, BigFloat.neg_div]
  split <;> rfl

theorem conj_exp : conj z.exp = (conj z).exp := by
  simp only [exp, conj, sinCos_neg, BigFloat.mul_neg]

theorem conj_sinh : conj z.sinh = (conj z).sinh := by
  simp only [sinh, conj, sinCos_neg, BigFloat.mul_neg]

theorem conj_cosh : conj z.cosh = (conj z).cosh := by
  simp only [cosh, conj, sinCos_neg, BigFloat.mul_neg]

theorem conj_tanh : conj z.tanh = (conj z).tanh := by
  rw [tanh, tanh, conj_div, conj_sinh, conj_cosh]

variable {z}

theorem conj_log (h : ¬ z.IsNegativeReal) : conj z.log = (conj z).log := by
  simp only [log, conj, BigFloat.neg_mul_neg, atan2_neg h]

theorem conj_pow (h : ¬ z.IsNegativeReal) : conj (z.pow w) = (conj z).pow (conj w) := by
  have hzero (u : BigComplex) : (conj u).isZero = u.isZero := by
    rw [isZero, isZero, conj, isZero_neg]
  rw [pow, pow, hzero, hzero, ← conj_log h, ← conj_mul, ← conj_exp]
  -- a zero base has a real power, or none
  split
  · split
    · rfl
    · show conj (if w.re.isPositive then 0 else nan) = if w.re.isPositive then 0 else nan
      split <;> rfl
  · rfl

/-- Conjugation commutes with arithmetic and with the exponential and hyperbolic functions,
undefined results included, and with the logarithm and powers off the negative real numbers. -/
theorem conjugation_commutes (z w : BigComplex) :
    conj (z + w) = conj z + conj w ∧ conj (z - w) = conj z - conj w ∧ conj (z * w) = conj z * conj w ∧
    conj (z / w) = conj z / conj w ∧ conj z.exp = (conj z).exp ∧ conj z.sinh = (conj z).sinh ∧
    conj z.cosh = (conj z).cosh ∧ conj z.tanh = (conj z).tanh ∧
    (¬ z.IsNegativeReal → conj z.log = (conj z).log ∧ conj (z.pow w) = (conj z).pow (conj w)) :=
  ⟨conj_add z w, conj_sub z w, conj_mul z w, conj_div z w, conj_exp z, conj_sinh z, conj_cosh z, conj_tanh z,
    fun h => ⟨conj_log h, conj_pow w h⟩⟩

theorem conjugation_commutes_beside_cut :
    ¬ (⟨-1, (1 : BigFloat).scale (-200)⟩ : BigComplex).IsNegativeReal ∧
    conj (log ⟨-1, (1 : BigFloat).scale (-200)⟩) = log ⟨-1, -(1 : BigFloat).scale (-200)⟩ ∧
    conj (pow ⟨-1, (1 : BigFloat).scale (-200)⟩ i) = pow ⟨-1, -(1 : BigFloat).scale (-200)⟩ ⟨0, -1⟩ := by
  have h : ¬ (⟨-1, (1 : BigFloat).scale (-200)⟩ : BigComplex).IsNegativeReal := by
    unfold IsNegativeReal
    decide
  exact ⟨h, (conjugation_commutes _ i).2.2.2.2.2.2.2.2 h⟩

end BigComplex

end Phasor
