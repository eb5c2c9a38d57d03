import Mathlib.Analysis.Real.Sqrt
import Mathlib.Data.Nat.Cast.Order.Field
import Phasor.BigFloat.Basic
import Phasor.Proofs.RoundingError

/-!
The number of at most `p` binary digits that is nearest to a real one, where of two that are equally
near the one farther from zero is taken. Products, quotients and square roots are such numbers: an
integer quotient or an integer root drops its remainder before it is rounded, and has a digit to
spare, so that the rounding is the only one.
-/

namespace Dyadic

noncomputable def toReal (x : Dyadic) : ℝ := x.toRat

theorem toReal_inj {x y : Dyadic} : x.toReal = y.toReal ↔ x = y := by
  unfold toReal
  rw [Rat.cast_inj, toRat_inj]

theorem toReal_neg (x : Dyadic) : (-x).toReal = -x.toReal := by
  unfold toReal
  rw [toRat_neg, Rat.cast_neg]

theorem toReal_mul (x y : Dyadic) : (x * y).toReal = x.toReal * y.toReal := by
  unfold toReal
  rw [toRat_mul, Rat.cast_mul]

theorem toReal_eq (x : Dyadic) : x.toReal = x.mantissa * 2 ^ x.exponent := by
  unfold toReal
  rw [toRat_eq_mantissa_mul]
  push_cast
  rfl

theorem toReal_scaled (m e : Int) : (scaled m e).toReal = m * 2 ^ e := by
  unfold toReal
  rw [toRat_scaled]
  push_cast
  rfl

structure Nearest (p : Nat) (r : ℝ) (x : Dyadic) : Prop where
  fits : x.Fits p
  best : ∀ z : Dyadic, z.Fits p → z ≠ x → |x.toReal - r| < |z.toReal - r| ∨
    |x.toReal - r| = |z.toReal - r| ∧ |z.toReal| < |x.toReal|

namespace Nearest

variable {p : Nat} {r : ℝ} {x y : Dyadic}

theorem unique (hx : Nearest p r x) (hy : Nearest p r y) : x = y := by
  by_contra hne
  rcases hx.best y hy.fits (Ne.symm hne) with h | ⟨h, h'⟩
  · rcases hy.best x hx.fits hne with h₁ | ⟨h₁, -⟩ <;> linarith
  · rcases hy.best x hx.fits hne with h₁ | ⟨-, h₁⟩ <;> linarith

theorem of_eq (hf : x.Fits p) (hr : x.toReal = r) : Nearest p r x := by
  refine ⟨hf, ?_⟩
  intro z _ hne
  left
  rw [hr, sub_self, abs_zero, abs_pos, sub_ne_zero, ← hr]
  exact mt toReal_inj.mp hne

theorem neg (h : Nearest p r x) : Nearest p (-r) (-x) := by
  refine ⟨h.fits.neg, ?_⟩
  intro z hz hne
  have hdist (a : ℝ) : |-a - -r| = |a - r| := by rw [neg_sub_neg, abs_sub_comm]
  have hne' : -z ≠ x := by
    rintro rfl
    apply hne
    rw [← toReal_inj, toReal_neg, toReal_neg, neg_neg]
  have hbest := h.best (-z) hz.neg hne'
  rwa [← hdist (-z).toReal, toReal_neg, neg_neg, abs_neg, ← hdist x.toReal, ← abs_neg x.toReal, ← toReal_neg] at hbest

end Nearest

theorem exists_eq_mul_zpow {p : Nat} {x : Dyadic} {k : Int} (hf : x.Fits p) (hk : 2 ^ (k - 1) ≤ |x.toReal|) :
    ∃ j : Int, x.toReal = j * 2 ^ (k - p) := by
  rcases Int.lt_or_le x.exponent (k - p) with hlt | hle
  · -- a digit below the place `k - p` leaves the number below `2 ^ (k - 1)`
    have hsize : |x.toReal| < 2 ^ (k - 1) := by
      have hm : |(x.mantissa : ℝ)| < 2 ^ p := by
        rw [← Int.cast_abs, Int.abs_eq_natAbs]
        exact_mod_cast bitLength_le_iff.mp hf
      calc |x.toReal| = |(x.mantissa : ℝ)| * 2 ^ x.exponent := by
            rw [toReal_eq, abs_mul, abs_of_pos (by positivity : (0 : ℝ) < 2 ^ x.exponent)]
        _ < 2 ^ p * 2 ^ x.exponent := by gcongr
        _ ≤ 2 ^ p * 2 ^ (k - 1 - p) := by
            gcongr
            · norm_num
            · omega
        _ = 2 ^ (k - 1) := by
            rw [← zpow_natCast, ← zpow_add₀ (by norm_num)]
            congr 1
            omega
    exact absurd hk (not_le.mpr hsize)
  · obtain ⟨n, hn⟩ := Int.le.dest hle
    refine ⟨x.mantissa * 2 ^ n, ?_⟩
    rw [toReal_eq, ← hn, zpow_add₀ (by norm_num), zpow_natCast]
    push_cast
    ring

theorem halfUp_best {r u : ℝ} {q : Int} (hr : 0 < r) (hu : 0 < u) (hlow : q * u ≤ r + u / 2)
    (hhigh : r < q * u + u / 2) {j : Int} (hj : j ≠ q) :
    |q * u - r| < |j * u - r| ∨ |q * u - r| = |j * u - r| ∧ |j * u| < |q * u| := by
  have hnear : |q * u - r| ≤ u / 2 := by
    rw [abs_le]
    constructor <;> linarith
  rcases Int.lt_or_gt_of_ne hj with hlt | hgt
  · have hstep : (j : ℝ) * u + u ≤ q * u := by
      have hle : (j : ℝ) + 1 ≤ q := by exact_mod_cast hlt
      nlinarith
    have hother : |j * u - r| = r - j * u := by
      rw [abs_sub_comm]
      apply abs_of_nonneg
      linarith
    rcases lt_or_ge |q * u - r| |j * u - r| with h | h
    · exact .inl h
    · -- `r` lies halfway, and `q * u` is the upper one
      right
      have hhalf : q * u = r + u / 2 := by linarith
      refine ⟨by linarith, ?_⟩
      rw [abs_of_pos (by linarith : 0 < q * u), abs_lt]
      constructor <;> linarith
  · left
    have hstep : (q : ℝ) * u + u ≤ j * u := by
      have hle : (q : ℝ) + 1 ≤ j := by exact_mod_cast hgt
      nlinarith
    apply lt_of_le_of_lt hnear
    rw [abs_of_pos (by linarith)]
    linarith

theorem nearest_of_halfUp {p : Nat} (hp : 0 < p) {r : ℝ} {k q : Int} {x : Dyadic} (hf : x.Fits p)
    (hx : x.toReal = q * 2 ^ (k - p)) (hr : 2 ^ (k - 1) ≤ r) (hlow : x.toReal ≤ r + 2 ^ (k - p) / 2)
    (hhigh : r < x.toReal + 2 ^ (k - p) / 2) : Nearest p r x := by
  have hpos : 0 < r := lt_of_lt_of_le (by positivity) hr
  rw [hx] at hlow hhigh
  have hbest {j : Int} (hj : j ≠ q) := halfUp_best hpos (by positivity) hlow hhigh hj
  refine ⟨hf, ?_⟩
  intro z hz hne
  rcases le_or_gt (2 ^ (k - 1)) |z.toReal| with hlarge | hsmall
  · obtain ⟨j, hj⟩ := exists_eq_mul_zpow hz hlarge
    rw [hx, hj]
    apply hbest
    rintro rfl
    exact hne (toReal_inj.mp (hj.trans hx.symm))
  · -- the power of two between `z` and `r` is a competitor that `x` beats
    left
    have hbound : (((2 : Int) ^ (p - 1) : Int) : ℝ) * 2 ^ (k - p) = 2 ^ (k - 1) := by
      push_cast
      rw [← zpow_natCast, ← zpow_add₀ (by norm_num)]
      congr 1
      omega
    have hle : |x.toReal - r| ≤ r - 2 ^ (k - 1) := by
      rw [← abs_of_nonneg (sub_nonneg.mpr hr), abs_sub_comm r, hx, ← hbound]
      by_cases hq : (2 : Int) ^ (p - 1) = q
      · rw [hq]
      · rcases hbest hq with h | h
        · exact h.le
        · exact h.1.le
    have habs := abs_sub_abs_le_abs_sub r z.toReal
    rw [abs_of_pos hpos, abs_sub_comm] at habs
    linarith

theorem lt_halfUp (a : Nat) {w : Nat} (hw : 0 < w) : a + w < ((a / w + 1) / 2 + 1) * (2 * w) := by
  have hle : a / w ≤ (a / w + 1) / 2 * 2 := by omega
  have hle' := Nat.mul_le_mul_right w hle
  have hlt := Nat.lt_div_mul_add hw (a := a)
  rw [Nat.mul_assoc] at hle'
  rw [Nat.add_mul]
  omega

theorem nearest_roundScaled_natCast {p : Nat} (hp : 0 < p) {t : Nat} {f : Int} {r : ℝ} (hlow : t * 2 ^ f ≤ r)
    (hhigh : r < (t + 1) * 2 ^ f) (hwide : r = t * 2 ^ f ∨ p < bitLength t) : Nearest p r (roundScaled p t f) := by
  rcases hs : bitLength t - p with _ | s
  · have hr : r = t * 2 ^ f := hwide.resolve_right (by omega)
    apply Nearest.of_eq (fits_roundScaled hp _ _)
    rw [roundScaled, toReal_scaled, Int.natAbs_natCast, hs, hr]
    simp [shiftRound]
  · have ht : t ≠ 0 := by
      rintro rfl
      exact absurd hs (by simp [bitLength])
    have hplace : (2 : ℝ) ^ (f + bitLength t - p) = 2 * 2 ^ s * 2 ^ f := by
      rw [show f + bitLength t - p = f + (s + 1 : Nat) by omega, zpow_add₀ (by norm_num), zpow_natCast]
      ring
    have hvalue : (roundScaled p t f).toReal = (((t / 2 ^ s + 1) / 2 : Nat) : Int) * 2 ^ (f + bitLength t - p) := by
      rw [roundScaled, toReal_scaled, Int.natAbs_natCast, hs, shiftRound,
        Int.sign_eq_one_of_pos (by omega), Int.one_mul, Int.natAbs_natCast, Nat.shiftRight_eq_div_pow,
        Nat.shiftRight_eq_div_pow, pow_one, show f + ((s + 1 : Nat) : Int) = f + bitLength t - p by omega]
    have hdown := (halfUp_bounds t (Nat.two_pow_pos s)).2
    have hup := lt_halfUp t (Nat.two_pow_pos s)
    generalize (t / 2 ^ s + 1) / 2 = q at *
    have hdownr : (q : ℝ) * (2 * 2 ^ s) ≤ t + 2 ^ s := by exact_mod_cast hdown
    have hupr : (t : ℝ) + 2 ^ s + 1 ≤ (q + 1) * (2 * 2 ^ s) := by exact_mod_cast hup
    have hf : (0 : ℝ) < 2 ^ f := by positivity
    apply nearest_of_halfUp hp (fits_roundScaled hp _ _) hvalue
    · have hlead : (2 : ℝ) ^ bitLength t ≤ 2 * t := by exact_mod_cast two_pow_bitLength_le ht
      refine le_trans ?_ hlow
      rw [zpow_sub₀ (by norm_num), zpow_add₀ (by norm_num), zpow_natCast, zpow_one, div_le_iff₀ (by norm_num)]
      nlinarith
    · rw [hvalue, hplace]
      push_cast
      nlinarith
    · rw [hvalue, hplace]
      push_cast
      nlinarith

theorem scaled_neg (m e : Int) : scaled (-m) e = -scaled m e := by
  rw [← toReal_inj, toReal_neg, toReal_scaled, toReal_scaled]
  push_cast
  ring

theorem shiftRound_neg (n : Int) (s : Nat) : shiftRound (-n) s = -shiftRound n s := by
  cases s with
  | zero => rfl
  | succ s => rw [shiftRound, shiftRound, Int.sign_neg, Int.natAbs_neg, Int.neg_mul]

theorem roundScaled_neg (p : Nat) (m e : Int) : roundScaled p (-m) e = -roundScaled p m e := by
  rw [roundScaled, roundScaled, Int.natAbs_neg, shiftRound_neg, scaled_neg]

theorem nearest_roundScaled {p : Nat} (hp : 0 < p) (m e : Int) : Nearest p (m * 2 ^ e) (roundScaled p m e) := by
  have hnat (t : Nat) : Nearest p (t * 2 ^ e) (roundScaled p t e) := by
    apply nearest_roundScaled_natCast hp le_rfl _ (.inl rfl)
    have : (0 : ℝ) < 2 ^ e := by positivity
    linarith
  rcases Int.eq_nat_or_neg m with ⟨t, rfl | rfl⟩
  · exact_mod_cast hnat t
  · rw [roundScaled_neg, Int.cast_neg, ← neg_mul_eq_neg_mul, Int.cast_natCast]
    exact (hnat t).neg

theorem nearest_roundTo {p : Nat} (hp : 0 < p) (x : Dyadic) : Nearest p x.toReal (x.roundTo p) := by
  rw [toReal_eq]
  exact nearest_roundScaled hp _ _

theorem nearest_mulTo {p : Nat} (hp : 0 < p) (x y : Dyadic) : Nearest p (x.toReal * y.toReal) (x.mulTo p y) := by
  rw [← toReal_mul]
  exact nearest_roundTo hp _

theorem nearest_roundQuotient_natCast {p : Nat} (hp : 0 < p) (n : Nat) {d : Nat} (hd : d ≠ 0) (e : Int) :
    Nearest p (n / d * 2 ^ e) (roundQuotient p n d e) := by
  have hwide := wide_quotient p (n := n) (d := d)
  simp only [Int.natAbs_natCast, Nat.cast_ne_zero] at hwide
  simp only [roundQuotient, Int.natAbs_natCast]
  generalize p + 2 + bitLength d - bitLength n = s at *
  have hquot : ((n : Int) <<< s).tdiv d = ((n * 2 ^ s / d : Nat) : Int) := by
    rw [Int.shiftLeft_eq, Int.ofNat_tdiv]
    push_cast
    rfl
  have hd' : (0 : ℝ) < d := by exact_mod_cast Nat.pos_of_ne_zero hd
  have hvalue : (n : ℝ) / d * 2 ^ e = (n * 2 ^ s : Nat) / d * 2 ^ (e - s) := by
    rw [zpow_sub₀ (by norm_num), zpow_natCast]
    push_cast
    field_simp
  rw [hquot, hvalue]
  apply nearest_roundScaled_natCast hp
  · gcongr
    exact Nat.cast_div_le
  · gcongr
    rw [div_lt_iff₀ hd']
    have hlt := Nat.lt_div_mul_add (Nat.pos_of_ne_zero hd) (a := n * 2 ^ s)
    rw [add_one_mul]
    exact_mod_cast hlt
  · by_cases hn : n = 0
    · left
      simp [hn]
    · right
      have hlead : 2 ^ p * d ≤ n * 2 ^ s := by
        refine le_trans (Nat.mul_le_mul_right d ?_) (hwide hn)
        exact Nat.pow_le_pow_right (by decide) (Nat.le_succ p)
      rw [← Nat.not_le, bitLength_le_iff, Nat.not_lt]
      exact (Nat.le_div_iff_mul_le (Nat.pos_of_ne_zero hd)).mpr hlead

theorem roundQuotient_neg_left (p : Nat) (n d e : Int) : roundQuotient p (-n) d e = -roundQuotient p n d e := by
  simp only [roundQuotient, Int.natAbs_neg, Int.neg_shiftLeft, Int.neg_tdiv, roundScaled_neg]

theorem roundQuotient_neg_right (p : Nat) (n d e : Int) : roundQuotient p n (-d) e = -roundQuotient p n d e := by
  simp only [roundQuotient, Int.natAbs_neg, Int.tdiv_neg, roundScaled_neg]

theorem nearest_roundQuotient {p : Nat} (hp : 0 < p) (n : Int) {d : Int} (hd : d ≠ 0) (e : Int) :
    Nearest p (n / d * 2 ^ e) (roundQuotient p n d e) := by
  have hpos {b : Nat} (hb : b ≠ 0) : Nearest p (n / (b : Int) * 2 ^ e) (roundQuotient p n b e) := by
    rcases Int.eq_nat_or_neg n with ⟨a, rfl | rfl⟩
    · exact nearest_roundQuotient_natCast hp a hb e
    · rw [roundQuotient_neg_left, Int.cast_neg, neg_div, ← neg_mul_eq_neg_mul]
      exact (nearest_roundQuotient_natCast hp a hb e).neg
  rcases Int.eq_nat_or_neg d with ⟨b, rfl | rfl⟩
  · exact hpos (by omega)
  · rw [roundQuotient_neg_right, Int.cast_neg, div_neg, ← neg_mul_eq_neg_mul]
    exact (hpos (by omega)).neg

theorem nearest_divTo {p : Nat} (hp : 0 < p) (x : Dyadic) {y : Dyadic} (hy : y ≠ 0) :
    Nearest p (x.toReal / y.toReal) (x.divTo p y) := by
  have hvalue : x.toReal / y.toReal = x.mantissa / y.mantissa * 2 ^ (x.exponent - y.exponent) := by
    rw [toReal_eq, toReal_eq, zpow_sub₀ (by norm_num), mul_div_mul_comm]
  rw [divTo, if_neg hy, hvalue]
  exact nearest_roundQuotient hp _ (mantissa_ne_zero hy) _

theorem nearest_roundScaled_sqrt {p : Nat} (hp : 0 < p) {n : Nat} (hn : n = 0 ∨ 2 ^ p * 2 ^ p ≤ n) (g : Int) :
    Nearest p (√(n : ℝ) * 2 ^ g) (roundScaled p n.sqrt g) := by
  apply nearest_roundScaled_natCast hp
  · gcongr
    exact Real.nat_sqrt_le_real_sqrt
  · gcongr
    exact Real.real_sqrt_lt_nat_sqrt_succ
  · rcases hn with rfl | hn
    · left
      simp
    · right
      rw [← Nat.not_le, bitLength_le_iff, Nat.not_lt]
      exact Nat.le_sqrt.mpr hn

theorem nearest_sqrtTo {p : Nat} (hp : 0 < p) {x : Dyadic} (hx : 0 ≤ x.mantissa) :
    Nearest p (√x.toReal) (x.sqrtTo p) := by
  obtain ⟨n, hn⟩ := Int.eq_ofNat_of_zero_le hx
  simp only [sqrtTo, hn, Int.toNat_natCast, Int.natAbs_natCast, Nat.shiftLeft_eq]
  -- the widened mantissa has an even exponent, and enough digits for a root of `p` and more
  obtain ⟨s, hs, heven, hwide⟩ : ∃ s, (if (x.exponent - (2 * (p + 2) - bitLength n : Nat)) % 2 = 0 then
      2 * (p + 2) - bitLength n else 2 * (p + 2) - bitLength n + 1) = s ∧ (x.exponent - s) % 2 = 0 ∧
      2 * (p + 2) ≤ bitLength n + s := by
    split
    · exact ⟨_, rfl, by assumption, by omega⟩
    · exact ⟨_, rfl, by omega, by omega⟩
  rw [hs]
  have hvalue : √x.toReal = √((n * 2 ^ s : Nat) : ℝ) * 2 ^ ((x.exponent - s) / 2) := by
    have hsplit : x.exponent = s + ((x.exponent - s) / 2 + (x.exponent - s) / 2) := by omega
    have hroot : (0 : ℝ) ≤ 2 ^ ((x.exponent - s) / 2) := by positivity
    rw [toReal_eq, hn, ← Real.sqrt_mul_self hroot, ← Real.sqrt_mul (Nat.cast_nonneg _)]
    congr 1
    calc (n : ℝ) * 2 ^ x.exponent = n * (2 ^ s * (2 ^ ((x.exponent - s) / 2) * 2 ^ ((x.exponent - s) / 2))) := by
          rw [← zpow_add₀ (by norm_num), ← zpow_natCast, ← zpow_add₀ (by norm_num), ← hsplit]
      _ = (n * 2 ^ s : Nat) * (2 ^ ((x.exponent - s) / 2) * 2 ^ ((x.exponent - s) / 2)) := by
          push_cast
          ring
  rw [hvalue]
  apply nearest_roundScaled_sqrt hp
  by_cases hzero : n = 0
  · left
    rw [hzero, Nat.zero_mul]
  · right
    have hlead := Nat.mul_le_mul_right (2 ^ s) (two_pow_bitLength_le hzero)
    have hmany : 2 * (2 ^ p * 2 ^ p) ≤ 2 ^ bitLength n * 2 ^ s := by
      rw [← Nat.pow_add, ← Nat.pow_succ', ← Nat.pow_add]
      exact Nat.pow_le_pow_right (by decide) (by omega)
    rw [Nat.mul_assoc] at hlead
    omega

end Dyadic

namespace Phasor.BigFloat

open Dyadic

def IsNearest (r : ℝ) (b : BigFloat) : Prop := ∃ x, b = num x ∧ x.Nearest 96 r

theorem IsNearest.eq_num {r : ℝ} {b : BigFloat} {z : Dyadic} (hb : b.IsNearest r) (hz : z.Nearest 96 r) :
    b = num z := by
  obtain ⟨x, rfl, hx⟩ := hb
  rw [hx.unique hz]

theorem isNearest_mul (x y : Dyadic) : (num x * num y).IsNearest (x.toReal * y.toReal) :=
  ⟨_, rfl, nearest_mulTo (by decide) x y⟩

theorem isNearest_div (x : Dyadic) {y : Dyadic} (hy : y ≠ 0) : (num x / num y).IsNearest (x.toReal / y.toReal) := by
  have hne : num y ≠ 0 := fun h => hy (num.inj h)
  refine ⟨_, ?_, nearest_divTo (by decide) x hy⟩
  change divTo precision (num x) (num y) = _
  rw [divTo, if_neg hne]
  rfl

theorem isNearest_sqrt {x : Dyadic} (hx : 0 ≤ x.toReal) : (num x).sqrt.IsNearest √x.toReal := by
  have hmantissa : 0 ≤ x.mantissa := by
    rw [toReal_eq] at hx
    exact_mod_cast nonneg_of_mul_nonneg_left hx (by positivity)
  refine ⟨_, ?_, nearest_sqrtTo (by decide) hmantissa⟩
  rw [sqrt, sqrtTo, if_neg (by simpa [isNegative] using hmantissa)]
  rfl

theorem operations_round_once (x y : Dyadic) :
    (num x * num y).IsNearest (x.toReal * y.toReal) ∧
    (y ≠ 0 → (num x / num y).IsNearest (x.toReal / y.toReal)) ∧
    (0 ≤ x.toReal → (num x).sqrt.IsNearest √x.toReal) ∧
    ∀ z : Dyadic, z.Fits 96 →
      (z.toReal = x.toReal * y.toReal → num x * num y = num z) ∧
      (y ≠ 0 → z.toReal = x.toReal / y.toReal → num x / num y = num z) ∧
      (0 ≤ x.toReal → z.toReal = √x.toReal → (num x).sqrt = num z) := by
  refine ⟨isNearest_mul x y, isNearest_div x, isNearest_sqrt, ?_⟩
  intro z hz
  refine ⟨?_, ?_, ?_⟩
  · intro h
    exact (isNearest_mul x y).eq_num (.of_eq hz h)
  · intro hy h
    exact (isNearest_div x hy).eq_num (.of_eq hz h)
  · intro hx h
    exact (isNearest_sqrt hx).eq_num (.of_eq hz h)

example : num (.ofInt (2 ^ 96 + 1)) * 1 = num (.ofInt (2 ^ 96 + 2)) := by decide +kernel

theorem operations_round_once_nine : Dyadic.ofInt (-7) ≠ 0 ∧ 0 ≤ (Dyadic.ofInt 9).toReal ∧
    (num (.ofInt 9) / num (.ofInt (-7))).IsNearest ((Dyadic.ofInt 9).toReal / (Dyadic.ofInt (-7)).toReal) ∧
    (num (.ofInt 9)).sqrt = num (.ofInt 3) := by
  have hy : Dyadic.ofInt (-7) ≠ 0 := by decide
  have hvalue (n : Int) : (Dyadic.ofInt n).toReal = n := by
    have h : (Dyadic.ofInt n).toReal = n * 2 ^ (0 : Int) := toReal_scaled n 0
    simpa using h
  have hx : 0 ≤ (Dyadic.ofInt 9).toReal := by
    rw [hvalue]
    norm_num
  have hroot : (Dyadic.ofInt 3).toReal = √(Dyadic.ofInt 9).toReal := by
    rw [hvalue, hvalue]
    push_cast
    rw [show (9 : ℝ) = 3 * 3 by norm_num, Real.sqrt_mul_self (by norm_num)]
  obtain ⟨-, hquotient, -, hexact⟩ := operations_round_once (.ofInt 9) (.ofInt (-7))
  exact ⟨hy, hx, hquotient hy, (hexact (.ofInt 3) (by unfold Fits; decide)).2.2 hx hroot⟩

end Phasor.BigFloat
