import Phasor.Proofs.Logarithm
import Phasor.Proofs.Symmetry

/-!
Rounded results keep the order with every number that fits, also sums, whose operands are cut to a
window first. So the sums of a series with terms of changing signs stay between the first two of
them, however often they are rounded: a term that is not negligible is of the size of a rounding at
least, and the term before it was ten times as large.
-/

namespace Dyadic

theorem fits_one {p : Nat} (hp : 0 < p) : (1 : Dyadic).Fits p :=
  fits_scaled (m := 1) hp Nat.one_le_two_pow 0

section Order

variable {p : Nat} {r : ℝ} {x z : Dyadic}

theorem Nearest.mono {s : ℝ} {y : Dyadic} (h : Nearest p r x) (h' : Nearest p s y) (hrs : r ≤ s) :
    x.toReal ≤ y.toReal := by
  by_contra hlt
  rw [not_le] at hlt
  have hne : y ≠ x := by
    rintro rfl
    exact lt_irrefl _ hlt
  -- the two results exchanged lie closer to the numbers on the whole, and no result has a better choice
  have hexchange : |y.toReal - r| + |x.toReal - s| ≤ |x.toReal - r| + |y.toReal - s| := by
    rcases abs_cases (y.toReal - r) with h₁ | h₁ <;> rcases abs_cases (x.toReal - s) with h₂ | h₂ <;>
      linarith [le_abs_self (x.toReal - r), neg_abs_le (x.toReal - r),
        le_abs_self (y.toReal - s), neg_abs_le (y.toReal - s)]
  rcases h.best y h'.fits hne with hx | ⟨hx, hx'⟩ <;> rcases h'.best x h.fits hne.symm with hy | ⟨hy, hy'⟩ <;> linarith

theorem Nearest.le (h : Nearest p r x) (hz : z.Fits p) (hr : r ≤ z.toReal) : x.toReal ≤ z.toReal :=
  h.mono (.of_eq hz rfl) hr

theorem Nearest.ge (h : Nearest p r x) (hz : z.Fits p) (hr : z.toReal ≤ r) : z.toReal ≤ x.toReal :=
  mono (.of_eq hz rfl) h hr

theorem Nearest.pos (h : Nearest p r x) (hp : 0 < p) (hr : 0 < r) : 0 < x.toReal := by
  have hclose := h.abs_sub_le hp
  have hunit : (2 : ℝ) ^ (-(p : Int)) ≤ 2 ^ (-1 : Int) := zpow_le_zpow_right₀ (by norm_num) (by omega)
  rw [abs_of_pos hr] at hclose
  have hhalf := (neg_abs_le _).trans' (neg_le_neg (hclose.trans (mul_le_mul_of_nonneg_right hunit hr.le)))
  norm_num at hhalf
  linarith

theorem CutAt.le {f : Int} {s : Dyadic} (h : CutAt p f r s) (hz : z.Fits p) (hr : r ≤ z.toReal) :
    s.toReal ≤ z.toReal := by
  -- a number that fits has digits below the cut only where it is far smaller than what was cut
  rcases le_or_gt (2 ^ (f + p - 1)) |z.toReal| with hlarge | hsmall
  · obtain ⟨j, hj⟩ := exists_eq_mul_zpow hz hlarge
    rw [add_sub_cancel_right] at hj
    by_contra hlt
    have hhalf := h.add_half_le (hj ▸ not_le.mp hlt)
    have hpos : (0 : ℝ) < 2 ^ f := by positivity
    linarith
  · have hsize := h.half_le_abs
    have hlarge := h.large
    have hnear := abs_le.mp h.near
    have hplace : (2 : ℝ) ^ (f + p - 1) ≤ 2 ^ (f + p + 62) / 2 := by
      rw [← zpow_pred]
      exact zpow_le_zpow_right₀ (by norm_num) (by omega)
    have hunit : (2 : ℝ) ^ f ≤ 2 ^ (f + p + 62) := zpow_le_zpow_right₀ (by norm_num) (by omega)
    obtain ⟨hlow, -⟩ := abs_lt.mp hsmall
    have hpos : (0 : ℝ) < 2 ^ (f + p - 1) := by positivity
    -- `r` is not above `z`, and it is too large to be positive
    have hr' : r ≤ -(2 ^ (f + p + 62) / 2) := by
      rcases le_abs'.mp hsize with hneg | hpos'
      · exact hneg
      · exact absurd (hpos'.trans hr) (not_le.mpr (lt_of_lt_of_le (abs_lt.mp hsmall).2 hplace))
    rcases le_abs'.mp hlarge with hneg | hpos'
    · linarith
    · linarith

end Order

section Sum

variable {p : Nat} (hp : 0 < p) {x y z : Dyadic} (hx : x.Fits p) (hy : y.Fits p)

include hp hx hy

theorem addTo_le (hz : z.Fits p) (h : x.toReal + y.toReal ≤ z.toReal) : (x.addTo p y).toReal ≤ z.toReal := by
  rw [addTo_eq_roundTo_windowSum]
  apply (nearest_roundTo hp _).le hz
  rcases windowSum_exact_or_cut hx hy with hexact | hcut
  · rwa [hexact]
  · exact hcut.le hz h

theorem le_addTo (hz : z.Fits p) (h : z.toReal ≤ x.toReal + y.toReal) : z.toReal ≤ (x.addTo p y).toReal := by
  have hneg := addTo_le hp hx.neg hy.neg hz.neg (by rw [toReal_neg, toReal_neg, toReal_neg]; linarith)
  rw [addTo_neg, toReal_neg, toReal_neg] at hneg
  linarith

theorem addTo_mem_uIcc {a b : Dyadic} (ha : a.Fits p) (hb : b.Fits p)
    (h : x.toReal + y.toReal ∈ Set.uIcc a.toReal b.toReal) : (x.addTo p y).toReal ∈ Set.uIcc a.toReal b.toReal := by
  rcases le_total a.toReal b.toReal with hab | hab
  · rw [Set.uIcc_of_le hab] at h ⊢
    exact ⟨le_addTo hp hx hy ha h.1, addTo_le hp hx hy hb h.2⟩
  · rw [Set.uIcc_of_ge hab] at h ⊢
    exact ⟨le_addTo hp hx hy hb h.1, addTo_le hp hx hy ha h.2⟩

end Sum

end Dyadic

namespace Phasor

open Dyadic (fits_addTo toReal_neg addTo_mem_uIcc)

theorem add_mem_uIcc_of_opposite {x y : ℝ} (hsign : x * y ≤ 0) (hle : |y| ≤ |x|) : x + y ∈ Set.uIcc 0 x := by
  rcases lt_trichotomy x 0 with hneg | rfl | hpos
  · have hy := nonneg_of_mul_nonpos_right hsign hneg
    rw [abs_of_neg hneg, abs_of_nonneg hy] at hle
    rw [Set.uIcc_of_ge hneg.le]
    constructor <;> linarith
  · rw [abs_zero, abs_nonpos_iff] at hle
    rw [hle, add_zero]
    exact Set.left_mem_uIcc
  · have hy := nonpos_of_mul_nonpos_right hsign hpos
    rw [abs_of_pos hpos, abs_of_nonpos hy] at hle
    rw [Set.uIcc_of_le hpos.le]
    constructor <;> linarith

theorem add_mem_uIcc_of_tenth {prev term next sum : ℝ} (hsum : |sum - (prev + term)| ≤ 9 * |next|)
    (htenth : 10 * |next| ≤ |term|) (hsign : term * next ≤ 0) : sum + next ∈ Set.uIcc prev sum := by
  rw [abs_le] at hsum
  rcases lt_trichotomy next 0 with hneg | rfl | hpos
  · have hterm := nonneg_of_mul_nonpos_left hsign hneg
    rw [abs_of_neg hneg] at hsum htenth
    rw [abs_of_nonneg hterm] at htenth
    rw [Set.uIcc_of_le (by linarith)]
    constructor <;> linarith
  · rw [add_zero]
    exact Set.right_mem_uIcc
  · have hterm := nonpos_of_mul_nonpos_left hsign hpos
    rw [abs_of_pos hpos] at hsum htenth
    rw [abs_of_nonpos hterm] at htenth
    rw [Set.uIcc_of_ge (by linarith)]
    constructor <;> linarith

theorem two_zpow_neg_le {w : Nat} (hw : 8 ≤ w) : (2 : ℝ) ^ (-(w : Int)) * (1 + 2 ^ (-60 : Int)) ≤ 1 / 200 := by
  have hpow : (2 : ℝ) ^ (-(w : Int)) ≤ 2 ^ (-8 : Int) := zpow_le_zpow_right₀ (by norm_num) (by omega)
  norm_num at hpow ⊢
  linarith

namespace RoundedOnce

variable {w : Nat} (hw : 8 ≤ w) {a r : ℝ} (h : RoundedOnce w a r)

include hw h

theorem abs_sub_le : |a - r| ≤ 1 / 200 * |r| :=
  le_trans h (mul_le_mul_of_nonneg_right (two_zpow_neg_le hw) (abs_nonneg r))

protected theorem abs_le : |a| ≤ 201 / 200 * |r| := by
  have hclose := abs_sub_le hw h
  have htri := abs_sub_abs_le_abs_sub a r
  linarith

protected theorem le_abs : 199 / 200 * |r| ≤ |a| := by
  have hclose := abs_sub_le hw h
  have htri := abs_sub_abs_le_abs_sub r a
  rw [abs_sub_comm] at htri
  linarith

protected theorem mul_nonneg : 0 ≤ a * r := by
  have hclose := abs_le.mp (abs_sub_le hw h)
  rcases le_total 0 r with hr | hr
  · rw [abs_of_nonneg hr] at hclose
    exact mul_nonneg (by linarith) hr
  · rw [abs_of_nonpos hr] at hclose
    exact mul_nonneg_of_nonpos_of_nonpos (by linarith) hr

protected theorem pos (hr : 0 < r) : 0 < a := by
  have hclose := abs_le.mp (abs_sub_le hw h)
  rw [abs_of_pos hr] at hclose
  linarith

end RoundedOnce

namespace Series

structure Alternating (s : Series Dyadic) (w : Nat) : Prop where
  fits : ∀ n power, (s.term n (s.step n power)).Fits w
  tenth : ∀ n power, 1 ≤ n → 10 * |(s.term (n + 1) (s.step (n + 1) power)).toReal| ≤ |(s.term n power).toReal|
  opposite : ∀ n power, (s.term n power).toReal * (s.term (n + 1) (s.step (n + 1) power)).toReal ≤ 0

structure Enclosed (s : Series Dyadic) (w : Nat) (a b : ℝ) (n : Nat) (power prev sum : Dyadic) : Prop where
  one_lt : 1 < n
  fits : prev.Fits w
  fits_term : (s.term (n - 1) power).Fits w
  reached : sum = prev.addTo w (s.term (n - 1) power)
  prev_mem : prev.toReal ∈ Set.uIcc a b
  sum_mem : sum.toReal ∈ Set.uIcc a b

def Between (s : Series Dyadic) (w : Nat) (start first : Dyadic) (n : Nat) (power sum : Dyadic) : Prop :=
  n = 1 ∧ power = start ∧ sum = first ∨
    ∃ prev, Enclosed s w first.toReal (first.addTo w (s.term 1 (s.step 1 start))).toReal n power prev sum

theorem Between.fits {s : Series Dyadic} {w : Nat} {start first power sum : Dyadic} {n : Nat}
    (hb : Between s w start first n power sum) (hw : 0 < w) (hfirst : first.Fits w) : sum.Fits w := by
  rcases hb with ⟨-, -, rfl⟩ | ⟨prev, he⟩
  · exact hfirst
  · exact he.reached ▸ fits_addTo hw _ _

theorem Between.mem {s : Series Dyadic} {w : Nat} {start first power sum : Dyadic} {n : Nat}
    (hb : Between s w start first n power sum) :
    sum.toReal ∈ Set.uIcc first.toReal (first.addTo w (s.term 1 (s.step 1 start))).toReal := by
  rcases hb with ⟨-, -, rfl⟩ | ⟨prev, he⟩
  · exact Set.left_mem_uIcc
  · exact he.sum_mem

section Alternating

variable {s : Series Dyadic} {w : Nat} (hw : 8 ≤ w) (h : s.Alternating w)

include hw

theorem abs_addTo_sub_le_of_not_negligible {prev term next : Dyadic} (hprev : prev.Fits w) (hterm : term.Fits w)
    (hlarge : negligible w next (prev.addTo w term) = false) :
    |(prev.addTo w term).toReal - (prev.toReal + term.toReal)| ≤ 9 * |next.toReal| := by
  -- A term that is not negligible exceeds an eighth of a rounding of the sum, so the sum is off by
  -- less than nine such terms.
  have hround := roundedOnce_addTo (by omega) hprev hterm
  have hsize := hround.le_abs hw
  have hnext : |(prev.addTo w term).toReal| < |next.toReal| * 2 ^ (w + 3) := by
    by_contra hle
    exact Bool.false_ne_true (hlarge.symm.trans (negligible_of_abs_le (not_lt.mp hle)))
  unfold RoundedOnce at hround
  generalize (prev.addTo w term).toReal = sum at *
  generalize prev.toReal + term.toReal = r at *
  have hscale : 2 ^ (-(w : Int)) * |sum| ≤ 8 * |next.toReal| :=
    calc 2 ^ (-(w : Int)) * |sum| ≤ 2 ^ (-(w : Int)) * (|next.toReal| * 2 ^ (w + 3)) := by gcongr
      _ = 8 * |next.toReal| := by
          rw [zpow_neg, zpow_natCast, pow_add]
          field_simp
          norm_num
  have hextra : (1 : ℝ) + 2 ^ (-60 : Int) ≤ 101 / 100 := by norm_num
  calc |sum - r| ≤ 2 ^ (-(w : Int)) * (1 + 2 ^ (-60 : Int)) * |r| := hround
    _ ≤ 2 ^ (-(w : Int)) * (101 / 100) * (200 / 199 * |sum|) := by
        gcongr
        linarith
    _ = 101 / 100 * (200 / 199) * (2 ^ (-(w : Int)) * |sum|) := by ring
    _ ≤ 101 / 100 * (200 / 199) * (8 * |next.toReal|) := by gcongr
    _ ≤ 9 * |next.toReal| := by
        have := abs_nonneg next.toReal
        linarith

include h

theorem Enclosed.step {a b : ℝ} {n : Nat} {power prev sum : Dyadic} (he : Enclosed s w a b n power prev sum)
    (hlarge : negligible w (s.term n (s.step n power)) sum = false) :
    Enclosed s w a b (n + 1) (s.step n power) sum (sum.addTo w (s.term n (s.step n power))) := by
  have hpos : 0 < w := by omega
  have hone := he.one_lt
  have hfits : sum.Fits w := he.reached ▸ fits_addTo hpos _ _
  refine ⟨by omega, hfits, h.fits n power, rfl, he.sum_mem, ?_⟩
  obtain ⟨i, rfl⟩ : ∃ i, n = i + 1 := ⟨n - 1, by omega⟩
  have hclose := abs_addTo_sub_le_of_not_negligible hw he.fits he.fits_term (he.reached ▸ hlarge)
  rw [← he.reached] at hclose
  have hmem := add_mem_uIcc_of_tenth hclose (h.tenth i power (by omega)) (h.opposite i power)
  exact Set.uIcc_subset_uIcc he.prev_mem he.sum_mem
    (addTo_mem_uIcc hpos hfits (h.fits (i + 1) power) he.fits hfits hmem)

theorem Between.step {start first power sum : Dyadic} {n : Nat} (hfirst : first.Fits w)
    (hb : Between s w start first n power sum) (hlarge : negligible w (s.term n (s.step n power)) sum = false) :
    Between s w start first (n + 1) (s.step n power) (sum.addTo w (s.term n (s.step n power))) := by
  rcases hb with ⟨rfl, rfl, rfl⟩ | ⟨prev, he⟩
  · exact .inr ⟨sum, by omega, hfirst, h.fits 1 power, rfl, Set.left_mem_uIcc, Set.right_mem_uIcc⟩
  · exact .inr ⟨sum, he.step hw h hlarge⟩

theorem sumFrom_mem_uIcc (limit : Nat) (power : Dyadic) {sum : Dyadic} (hsum : sum.Fits w) :
    (s.sumFrom w limit 1 power sum).value.Fits w ∧ (s.sumFrom w limit 1 power sum).value.toReal ∈
      Set.uIcc sum.toReal (sum.addTo w (s.term 1 (s.step 1 power))).toReal := by
  obtain ⟨n, power', hb, -⟩ := sumFrom_run s w (fun _ _ _ => Between.step hw h hsum) limit 1 power sum
    (.inl ⟨rfl, rfl, rfl⟩)
  exact ⟨hb.fits (by omega) hsum, hb.mem⟩

end Alternating

end Series

end Phasor
