import Phasor.Proofs.Nearest

/-!
Sums. Both operands are cut to a window below the larger one before they are added, so a sum is
rounded twice. Where the first rounding ends halfway between two numbers and had gone away from
zero, the second one takes the wrong of them; everywhere else the sum is the exact one rounded once.
-/

namespace Dyadic

theorem toReal_zero : (0 : Dyadic).toReal = 0 := by
  simp [toReal]

theorem toReal_add (x y : Dyadic) : (x + y).toReal = x.toReal + y.toReal := by
  unfold toReal
  rw [toRat_add, Rat.cast_add]

theorem exponent_neg (x : Dyadic) : (-x).exponent = x.exponent := by
  cases x with
  | zero => rfl
  | ofOdd n k hn => rfl

theorem roundTo_neg (p : Nat) (x : Dyadic) : (-x).roundTo p = -x.roundTo p := by
  rw [roundTo, roundTo, mantissa_neg, exponent_neg, roundScaled_neg]

theorem abs_toReal_lt (x : Dyadic) : |x.toReal| < 2 ^ x.top := by
  have h : ((|x.toRat| : ℚ) : ℝ) < ((2 ^ x.top : ℚ) : ℝ) := Rat.cast_lt.mpr x.abs_toRat_lt
  push_cast at h
  exact h

theorem two_zpow_top_le_toReal {x : Dyadic} (h : x ≠ 0) : 2 ^ x.top ≤ 2 * |x.toReal| := by
  have h : ((2 ^ x.top : ℚ) : ℝ) ≤ ((2 * |x.toRat| : ℚ) : ℝ) := Rat.cast_le.mpr (two_zpow_top_le h)
  push_cast at h
  exact h

theorem toReal_ne_zero {x : Dyadic} : x.toReal ≠ 0 ↔ x ≠ 0 := by
  rw [← toReal_zero, Ne, toReal_inj]

theorem exists_eq_mul_zpow_of_le {x : Dyadic} {f : Int} (h : f ≤ x.exponent) : ∃ j : Int, x.toReal = j * 2 ^ f := by
  obtain ⟨n, hn⟩ := Int.le.dest h
  refine ⟨x.mantissa * 2 ^ n, ?_⟩
  rw [toReal_eq, ← hn, zpow_add₀ (by norm_num), zpow_natCast]
  push_cast
  ring

theorem roundAt_of_le {x : Dyadic} {f : Int} (h : f ≤ x.exponent) : x.roundAt f = x :=
  if_pos h

theorem exists_roundAt_eq (f : Int) (x : Dyadic) : ∃ j : Int, (x.roundAt f).toReal = j * 2 ^ f := by
  unfold roundAt
  split
  · rename_i h
    exact exists_eq_mul_zpow_of_le h
  · exact ⟨_, toReal_scaled _ _⟩

theorem abs_roundAt_sub_le (f : Int) (x : Dyadic) : |(x.roundAt f).toReal - x.toReal| ≤ 2 ^ f / 2 := by
  unfold roundAt
  split
  · rw [sub_self, abs_zero]
    positivity
  · rename_i h
    obtain ⟨s, hs⟩ : ∃ s : Nat, f = x.exponent + (s + 1 : Nat) := ⟨(f - x.exponent - 1).toNat, by omega⟩
    have hround : |(shiftRound x.mantissa (s + 1) : ℝ) * 2 ^ (s + 1) - x.mantissa| ≤ 2 ^ s := by
      exact_mod_cast abs_shiftRound_succ_sub_le x.mantissa s
    have hpow : (2 : ℝ) ^ f = 2 ^ (s + 1) * 2 ^ x.exponent := by
      rw [hs, zpow_add₀ (by norm_num), zpow_natCast]
      ring
    have hshift : (f - x.exponent).toNat = s + 1 := by omega
    rw [hshift, toReal_scaled, toReal_eq, hpow]
    calc |(shiftRound x.mantissa (s + 1) : ℝ) * (2 ^ (s + 1) * 2 ^ x.exponent) - x.mantissa * 2 ^ x.exponent|
        = |(shiftRound x.mantissa (s + 1) : ℝ) * 2 ^ (s + 1) - x.mantissa| * 2 ^ x.exponent := by
          rw [← abs_of_pos (by positivity : (0 : ℝ) < 2 ^ x.exponent), ← abs_mul,
            abs_of_pos (by positivity : (0 : ℝ) < 2 ^ x.exponent)]
          congr 1
          ring
      _ ≤ 2 ^ s * 2 ^ x.exponent := by gcongr
      _ = 2 ^ (s + 1) * 2 ^ x.exponent / 2 := by ring

theorem natAbs_le_two_pow {p : Nat} {q : Int} (hlow : -1 ≤ q) (hhigh : q ≤ 2 ^ p) : q.natAbs ≤ 2 ^ p := by
  have hcast : ((2 ^ p : Nat) : Int) = 2 ^ p := by push_cast; rfl
  have hpos := Nat.two_pow_pos p
  omega

theorem Nearest.halfUp {p : Nat} (hp : 0 < p) {r : ℝ} {k : Int} {x : Dyadic} (h : Nearest p r x)
    (hlow : 2 ^ (k - 1) ≤ r) (hhigh : r < 2 ^ k) :
    ∃ q : Int, (0 ≤ q ∧ q ≤ 2 ^ p) ∧ x.toReal = q * 2 ^ (k - p) ∧ x.toReal ≤ r + 2 ^ (k - p) / 2 ∧
      r < x.toReal + 2 ^ (k - p) / 2 := by
  have hu : (0 : ℝ) < 2 ^ (k - p) := by positivity
  have hfull : (2 : ℝ) ^ p * 2 ^ (k - p) = 2 ^ k := by
    rw [← zpow_natCast, ← zpow_add₀ (by norm_num), add_sub_cancel]
  have hfloor := Int.floor_le ((r + 2 ^ (k - p) / 2) / 2 ^ (k - p))
  have hfloor' := Int.lt_floor_add_one ((r + 2 ^ (k - p) / 2) / 2 ^ (k - p))
  generalize ⌊(r + 2 ^ (k - p) / 2) / 2 ^ (k - p)⌋ = q at *
  have hdown : q * 2 ^ (k - p) ≤ r + 2 ^ (k - p) / 2 := (le_div_iff₀ hu).mp hfloor
  have hup : r < q * 2 ^ (k - p) + 2 ^ (k - p) / 2 := by
    have := (div_lt_iff₀ hu).mp hfloor'
    linarith
  have hq : 0 ≤ q := by
    have hpos : 0 < r := lt_of_lt_of_le (by positivity) hlow
    by_contra hneg
    have hle : (q : ℝ) ≤ -1 := by exact_mod_cast Int.le_sub_one_of_lt (not_le.mp hneg)
    nlinarith
  have hq' : q ≤ 2 ^ p := by
    have hlt : (q : ℝ) * 2 ^ (k - p) < (2 ^ p + 1) * 2 ^ (k - p) := by
      rw [add_one_mul, hfull]
      linarith
    exact Int.lt_add_one_iff.mp (by exact_mod_cast lt_of_mul_lt_mul_right hlt hu.le)
  have hfits : (scaled q (k - p)).Fits p := fits_scaled hp (natAbs_le_two_pow (by omega) hq') _
  have hvalue := toReal_scaled q (k - p)
  have hnearest : Nearest p r (scaled q (k - p)) := by
    apply nearest_of_halfUp hp hfits hvalue hlow <;> rw [hvalue] <;> assumption
  rw [h.unique hnearest, hvalue]
  exact ⟨q, ⟨hq, hq'⟩, rfl, hdown, hup⟩

theorem zpow_pred (k : Int) : (2 : ℝ) ^ (k - 1) = 2 ^ k / 2 := by
  rw [zpow_sub₀ (by norm_num), zpow_one]

theorem Nearest.abs_sub_le {p : Nat} (hp : 0 < p) {r : ℝ} {x : Dyadic} (h : Nearest p r x) :
    |x.toReal - r| ≤ 2 ^ (-(p : Int)) * |r| := by
  have hpos {r : ℝ} {x : Dyadic} (h : Nearest p r x) (hr : 0 < r) : |x.toReal - r| ≤ 2 ^ (-(p : Int)) * |r| := by
    obtain ⟨k, hlow, hhigh⟩ := exists_mem_Ico_zpow hr (by norm_num : (1 : ℝ) < 2)
    obtain ⟨q, -, -, hdown, hup⟩ := h.halfUp hp (k := k + 1) (by rwa [add_sub_cancel_right]) hhigh
    have hplace : (2 : ℝ) ^ (k + 1 - p) / 2 = 2 ^ (-(p : Int)) * 2 ^ k := by
      rw [← zpow_add₀ (by norm_num), ← zpow_pred]
      congr 1
      omega
    rw [hplace] at hdown hup
    calc |x.toReal - r| ≤ 2 ^ (-(p : Int)) * 2 ^ k := by
          rw [abs_le]
          constructor <;> linarith
      _ ≤ 2 ^ (-(p : Int)) * |r| := by
          rw [abs_of_pos hr]
          gcongr
  rcases lt_trichotomy r 0 with hneg | rfl | hr
  · have hle := hpos h.neg (neg_pos.mpr hneg)
    rwa [toReal_neg, neg_sub_neg, abs_neg, abs_sub_comm] at hle
  · rw [h.unique (.of_eq (fits_zero p) toReal_zero), toReal_zero, sub_self, abs_zero, mul_zero]
  · exact hpos h hr

theorem exponent_eq_of_odd {x : Dyadic} {n e : Int} (hn : n % 2 = 1) (h : x.toReal = n * 2 ^ e) : x.exponent = e := by
  have hx : x ≠ 0 := by
    rw [← toReal_ne_zero, h]
    have : (n : ℝ) ≠ 0 := by
      rw [Int.cast_ne_zero]
      omega
    positivity
  have hm := mantissa_mod_two hx
  rw [toReal_eq] at h
  -- of two odd numbers one would be a multiple of two
  have hlt {a b c d : Int} (ha : a % 2 = 1) (heq : (a : ℝ) * 2 ^ c = b * 2 ^ d) : d ≤ c := by
    by_contra hcd
    obtain ⟨i, hi⟩ : ∃ i : Nat, d = c + (i + 1 : Nat) := ⟨(d - c - 1).toNat, by omega⟩
    rw [hi, zpow_add₀ (by norm_num), zpow_natCast, pow_succ] at heq
    have hpos : (2 : ℝ) ^ c ≠ 0 := by positivity
    have hdouble : (a : ℝ) = 2 * (b * 2 ^ i) := mul_right_cancel₀ hpos (by linear_combination heq)
    have hint : a = 2 * (b * 2 ^ i) := by exact_mod_cast hdouble
    omega
  exact le_antisymm (hlt hn h.symm) (hlt hm h)

theorem exists_zpow_eq_mul {f k : Int} (h : f ≤ k) : ∃ n : Int, (2 : ℝ) ^ k = n * 2 ^ f := by
  obtain ⟨n, rfl⟩ := Int.le.dest h
  refine ⟨2 ^ n, ?_⟩
  rw [zpow_add₀ (by norm_num), zpow_natCast]
  push_cast
  ring

theorem two_zpow_pred_top_le_toReal {x : Dyadic} (h : 0 < x.toReal) : 2 ^ (x.top - 1) ≤ x.toReal := by
  have hle := two_zpow_top_le_toReal (toReal_ne_zero.mp h.ne')
  rw [abs_of_pos h] at hle
  rw [zpow_sub₀ (by norm_num), zpow_one]
  linarith

theorem toReal_lt_two_zpow_top {x : Dyadic} (h : 0 < x.toReal) : x.toReal < 2 ^ x.top := by
  have hlt := x.abs_toReal_lt
  rwa [abs_of_pos h] at hlt

theorem roundTo_eq_add_half_iff {p : Nat} (hp : 0 < p) {x : Dyadic} (hx : 0 < x.toReal) :
    (x.roundTo p).toReal = x.toReal + 2 ^ (x.top - p) / 2 ↔ bitLength x.mantissa.natAbs = p + 1 := by
  have htop : x.top = x.exponent + bitLength x.mantissa.natAbs := rfl
  obtain ⟨q, -, hq, hdown, hup⟩ := (nearest_roundTo hp x).halfUp hp (two_zpow_pred_top_le_toReal hx)
    (toReal_lt_two_zpow_top hx)
  have hhalf := zpow_pred (x.top - p)
  have hpos : (0 : ℝ) < 2 ^ (x.top - p - 1) := by positivity
  rw [hq]
  rw [hq] at hdown hup
  constructor
  · intro h
    have hvalue : x.toReal = (2 * q - 1 : Int) * 2 ^ (x.top - p - 1) := by
      rw [hhalf]
      push_cast
      linarith
    have := exponent_eq_of_odd (by omega) hvalue
    omega
  · intro h
    have hexp : x.exponent = x.top - p - 1 := by omega
    have hm := mantissa_mod_two (toReal_ne_zero.mp hx.ne')
    have hvalue := toReal_eq x
    rw [hexp] at hvalue
    have hplace : (2 : ℝ) ^ (x.top - p) = 2 * 2 ^ (x.top - p - 1) := by linarith
    rw [hvalue, hplace] at hdown hup ⊢
    have hle : (2 * q : ℝ) ≤ x.mantissa + 1 := le_of_mul_le_mul_right (by linarith) hpos
    have hlt : (x.mantissa : ℝ) < 2 * q + 1 := lt_of_mul_lt_mul_right (by linarith) hpos.le
    have hint : 2 * q ≤ x.mantissa + 1 := by exact_mod_cast hle
    have hint' : x.mantissa < 2 * q + 1 := by exact_mod_cast hlt
    have heq : (2 * q : ℝ) = x.mantissa + 1 := by exact_mod_cast (by omega : 2 * q = x.mantissa + 1)
    linear_combination 2 ^ (x.top - p - 1) * heq

/-- `s` is `r` rounded at the place `f`, which lies far below the last of the first `p` digits of
`s`. -/
structure CutAt (p : Nat) (f : Int) (r : ℝ) (s : Dyadic) : Prop where
  multiple : ∃ j : Int, s.toReal = j * 2 ^ f
  near : |s.toReal - r| ≤ 2 ^ f / 2
  large : 2 ^ (f + p + 62) ≤ |s.toReal|

/-- `s` has a digit more than `p`, so it lies halfway between two numbers of `p` digits, and `r` is
nearer to zero. -/
def Overshot (p : Nat) (r : ℝ) (s : Dyadic) : Prop :=
  bitLength s.mantissa.natAbs = p + 1 ∧ |r| < |s.toReal|

theorem nearest_neg_iff {p : Nat} {r : ℝ} {x : Dyadic} : Nearest p (-r) (-x) ↔ Nearest p r x := by
  refine ⟨fun h => ?_, Nearest.neg⟩
  have hneg : - -x = x := by rw [← toReal_inj, toReal_neg, toReal_neg, neg_neg]
  have := h.neg
  rwa [neg_neg, hneg] at this

theorem overshot_neg_iff {p : Nat} {r : ℝ} {s : Dyadic} : Overshot p (-r) (-s) ↔ Overshot p r s := by
  unfold Overshot
  rw [mantissa_neg, Int.natAbs_neg, toReal_neg, abs_neg, abs_neg]

namespace CutAt

variable {p : Nat} {f : Int} {r : ℝ} {s : Dyadic}

theorem neg (h : CutAt p f r s) : CutAt p f (-r) (-s) := by
  obtain ⟨j, hj⟩ := h.multiple
  refine ⟨⟨-j, ?_⟩, ?_, ?_⟩
  · rw [toReal_neg, hj]
    push_cast
    ring
  · rw [toReal_neg, neg_sub_neg, abs_sub_comm]
    exact h.near
  · rw [toReal_neg, abs_neg]
    exact h.large

theorem add_half_le (h : CutAt p f r s) {i : Int} (hlt : i * 2 ^ f < s.toReal) : i * 2 ^ f + 2 ^ f / 2 ≤ r := by
  obtain ⟨j, hj⟩ := h.multiple
  have hf : (0 : ℝ) < 2 ^ f := by positivity
  rw [hj] at hlt
  have hle : (i : ℝ) + 1 ≤ j := by exact_mod_cast lt_of_mul_lt_mul_right hlt hf.le
  have hstep := mul_le_mul_of_nonneg_right hle hf.le
  have hnear := (abs_le.mp h.near).2
  rw [add_one_mul, ← hj] at hstep
  linarith

theorem le_sub_half (h : CutAt p f r s) {i : Int} (hlt : s.toReal < i * 2 ^ f) : r ≤ i * 2 ^ f - 2 ^ f / 2 := by
  have hneg : ((-i : Int) : ℝ) * 2 ^ f < (-s).toReal := by
    rw [toReal_neg]
    push_cast
    linarith
  have := h.neg.add_half_le hneg
  push_cast at this
  linarith

theorem deep (h : CutAt p f r s) : f + p + 63 ≤ s.top := by
  have hlt := lt_of_le_of_lt h.large s.abs_toReal_lt
  have := (zpow_lt_zpow_iff_right₀ (by norm_num : (1 : ℝ) < 2)).mp hlt
  omega

theorem zpow_le_quarter (h : CutAt p f r s) : (2 : ℝ) ^ f ≤ 2 ^ (s.top - p) / 4 := by
  have hle : f ≤ s.top - p - 1 - 1 := by
    have := h.deep
    omega
  calc (2 : ℝ) ^ f ≤ 2 ^ (s.top - p - 1 - 1) := zpow_le_zpow_right₀ (by norm_num) hle
    _ = 2 ^ (s.top - p) / 4 := by
        rw [zpow_pred, zpow_pred]
        ring

theorem half_le_abs (h : CutAt p f r s) : 2 ^ (f + p + 62) / 2 ≤ |r| := by
  have hlarge := h.large
  have hnear := h.near
  have htri := abs_sub_abs_le_abs_sub s.toReal r
  have hsmall : (2 : ℝ) ^ f ≤ 2 ^ (f + p + 62) := zpow_le_zpow_right₀ (by norm_num) (by omega)
  linarith

theorem near_le (h : CutAt p f r s) : |s.toReal - r| ≤ 2 ^ (-(p : Int)) * 2 ^ (-62 : Int) * |r| := by
  have hsplit : (2 : ℝ) ^ f = 2 ^ (-(p : Int)) * (2 ^ (-62 : Int) * 2 ^ (f + p + 62)) := by
    rw [← zpow_add₀ (by norm_num), ← zpow_add₀ (by norm_num)]
    congr 1
    omega
  calc |s.toReal - r| ≤ 2 ^ f / 2 := h.near
    _ = 2 ^ (-(p : Int)) * 2 ^ (-62 : Int) * (2 ^ (f + p + 62) / 2) := by
        rw [hsplit]
        ring
    _ ≤ 2 ^ (-(p : Int)) * 2 ^ (-62 : Int) * |r| := by
        gcongr
        exact h.half_le_abs

theorem eq_of_fits (h : CutAt p f r s) {z : Dyadic} (hz : z.Fits p) (hr : z.toReal = r) : s.toReal = r := by
  have hf : (0 : ℝ) < 2 ^ f := by positivity
  have hsize : 2 ^ (f + p - 1) ≤ |z.toReal| := by
    have hsmall : (2 : ℝ) ^ (f + p) ≤ 2 ^ (f + p + 62) := zpow_le_zpow_right₀ (by norm_num) (by omega)
    have := h.half_le_abs
    rw [hr, zpow_pred]
    linarith
  obtain ⟨j, hj⟩ := exists_eq_mul_zpow hz hsize
  rw [add_sub_cancel_right, hr] at hj
  rcases lt_trichotomy (j * (2 : ℝ) ^ f) s.toReal with hlt | heq | hgt
  · have := h.add_half_le hlt
    linarith
  · rw [← heq, hj]
  · have := h.le_sub_half hgt
    linarith

theorem nearest_of_power (hp : 0 < p) (h : CutAt p f r s) (hpow : s.toReal = 2 ^ (s.top - 1)) :
    Nearest p r (s.roundTo p) := by
  have hfits : (scaled 1 (s.top - 1)).Fits p := fits_scaled hp Nat.one_le_two_pow _
  have heq : scaled 1 (s.top - 1) = s := by
    rw [← toReal_inj, toReal_scaled, hpow]
    push_cast
    ring
  have hround : s.roundTo p = s := (nearest_roundTo hp s).unique (.of_eq (heq ▸ hfits) rfl)
  have hplace := h.zpow_le_quarter
  obtain ⟨hlow, hhigh⟩ := abs_le.mp h.near
  have hpos : (0 : ℝ) < 2 ^ (s.top - p) := by positivity
  rw [hround]
  rcases le_or_gt s.toReal r with hle | hlt
  · obtain ⟨n, hn⟩ := exists_zpow_eq_mul (show s.top - p ≤ s.top - 1 by omega)
    exact nearest_of_halfUp hp (heq ▸ hfits) (hpow.trans hn) (by linarith) (by linarith) (by linarith)
  · -- just below a power of two the last place is half as large
    obtain ⟨n, hn⟩ := exists_zpow_eq_mul (show s.top - 1 - p ≤ s.top - 1 by omega)
    have hhalf : (2 : ℝ) ^ (s.top - 1 - p) = 2 ^ (s.top - p) / 2 := by
      rw [← zpow_pred]
      congr 1
      omega
    refine nearest_of_halfUp hp (heq ▸ hfits) (hpow.trans hn) ?_ (by linarith) (by linarith)
    have hlarge : (2 : ℝ) ^ (s.top - p) ≤ 2 ^ (s.top - 1) := zpow_le_zpow_right₀ (by norm_num) (by omega)
    rw [zpow_pred]
    linarith

section Positive

variable (hp : 0 < p) (h : CutAt p f r s) (hs : 0 < s.toReal)

include hp h hs

theorem nearest_of_not_overshot (hr : ¬ Overshot p r s) : Nearest p r (s.roundTo p) := by
  have hlead := two_zpow_pred_top_le_toReal hs
  rcases hlead.lt_or_eq with hlt | heq
  · have hdeep := h.deep
    have hplace := h.zpow_le_quarter
    have hf : (0 : ℝ) < 2 ^ f := by positivity
    obtain ⟨hlow, hhigh⟩ := abs_le.mp h.near
    obtain ⟨q, -, hq, hdown, hup⟩ := (nearest_roundTo hp s).halfUp hp hlead (toReal_lt_two_zpow_top hs)
    -- the ends of the interval that is rounded to `q` are multiples of the place of the cut
    obtain ⟨i, hi⟩ := exists_zpow_eq_mul (show f ≤ s.top - 1 by omega)
    obtain ⟨n, hn⟩ := exists_zpow_eq_mul (show f ≤ s.top - p - 1 by omega)
    have hhalf := zpow_pred (s.top - p)
    have hbelow : ((2 * q - 1) * n : Int) * (2 : ℝ) ^ f = (s.roundTo p).toReal - 2 ^ (s.top - p) / 2 := by
      push_cast
      linear_combination (2 * q - 1 : ℝ) * (hhalf - hn) - hq
    have habove : ((2 * q + 1) * n : Int) * (2 : ℝ) ^ f = (s.roundTo p).toReal + 2 ^ (s.top - p) / 2 := by
      push_cast
      linear_combination (2 * q + 1 : ℝ) * (hhalf - hn) - hq
    have hr' : 2 ^ (s.top - 1) + 2 ^ f / 2 ≤ r := by
      rw [hi] at hlt ⊢
      exact h.add_half_le hlt
    have hupper := h.le_sub_half (habove ▸ hup)
    rw [habove] at hupper
    refine nearest_of_halfUp hp (fits_roundTo hp s) hq (by linarith) ?_ (by linarith)
    rcases hdown.lt_or_eq with hdown | htie
    · have := h.add_half_le (i := (2 * q - 1) * n) (by rw [hbelow]; linarith)
      rw [hbelow] at this
      linarith
    · have hle : |s.toReal| ≤ |r| := not_lt.mp (fun hlt => hr ⟨(roundTo_eq_add_half_iff hp hs).mp htie, hlt⟩)
      rw [abs_of_pos hs, abs_of_pos (lt_of_lt_of_le (by positivity) hr')] at hle
      linarith
  · exact nearest_of_power hp h heq.symm

theorem not_nearest_of_overshot (hr : Overshot p r s) : ¬ Nearest p r (s.roundTo p) := by
  intro hnearest
  have htie := (roundTo_eq_add_half_iff hp hs).mpr hr.1
  have hplace := h.zpow_le_quarter
  have hf : (0 : ℝ) < 2 ^ f := by positivity
  obtain ⟨hlow, hhigh⟩ := abs_le.mp h.near
  obtain ⟨q, ⟨hnonneg, hle⟩, hq, -⟩ :=
    (nearest_roundTo hp s).halfUp hp (two_zpow_pred_top_le_toReal hs) (toReal_lt_two_zpow_top hs)
  have hlt : r < s.toReal := lt_of_le_of_lt (le_abs_self r) (by simpa only [abs_of_pos hs] using hr.2)
  -- the neighbour below is nearer to `r`
  have hbelow := toReal_scaled (q - 1) (s.top - p)
  push_cast at hbelow
  have hfits : (scaled (q - 1) (s.top - p)).Fits p := fits_scaled hp (natAbs_le_two_pow (by omega) (by omega)) _
  have hne : scaled (q - 1) (s.top - p) ≠ s.roundTo p := by
    intro heq
    rw [heq] at hbelow
    linarith
  have hdist : |(scaled (q - 1) (s.top - p)).toReal - r| < |(s.roundTo p).toReal - r| := by
    rw [abs_of_pos (by linarith : 0 < (s.roundTo p).toReal - r), abs_lt]
    constructor <;> linarith
  rcases hnearest.best _ hfits hne with hbest | hbest <;> linarith [hbest]

end Positive

theorem nearest_iff (hp : 0 < p) (h : CutAt p f r s) : Nearest p r (s.roundTo p) ↔ ¬ Overshot p r s := by
  have hpos {r : ℝ} {s : Dyadic} (h : CutAt p f r s) (hs : 0 < s.toReal) :
      Nearest p r (s.roundTo p) ↔ ¬ Overshot p r s :=
    ⟨fun hn ho => not_nearest_of_overshot hp h hs ho hn, nearest_of_not_overshot hp h hs⟩
  have hne : s.toReal ≠ 0 := by
    intro hzero
    have hlarge := h.large
    rw [hzero, abs_zero] at hlarge
    exact absurd hlarge (not_le.mpr (by positivity))
  rcases lt_or_gt_of_ne hne with hneg | hs
  · have hmirror := hpos h.neg (by rw [toReal_neg]; linarith)
    rw [roundTo_neg, overshot_neg_iff] at hmirror
    rwa [nearest_neg_iff] at hmirror
  · exact hpos h hs

end CutAt

def windowFloor (p : Nat) (x y : Dyadic) : Int := max x.top y.top - (p + 64)

def windowSum (p : Nat) (x y : Dyadic) : Dyadic :=
  if x = 0 then y
  else if y = 0 then x
  else x.roundAt (windowFloor p x y) + y.roundAt (windowFloor p x y)

theorem addTo_eq_roundTo_windowSum (p : Nat) (x y : Dyadic) : x.addTo p y = (windowSum p x y).roundTo p := by
  unfold addTo windowSum windowFloor
  split
  · rfl
  · split <;> rfl

theorem windowFloor_comm (p : Nat) (x y : Dyadic) : windowFloor p x y = windowFloor p y x := by
  rw [windowFloor, windowFloor, max_comm]

theorem windowSum_comm (p : Nat) (x y : Dyadic) : windowSum p x y = windowSum p y x := by
  unfold windowSum
  rw [windowFloor_comm p y x]
  by_cases hx : x = 0
  · by_cases hy : y = 0
    · rw [if_pos hx, if_pos hy, hx, hy]
    · rw [if_pos hx, if_neg hy, if_pos hx]
  · by_cases hy : y = 0
    · rw [if_neg hx, if_pos hy, if_pos hy]
    · rw [if_neg hx, if_neg hy, if_neg hy, if_neg hx, Dyadic.add_comm]

theorem cutAt_windowSum {p : Nat} {x y : Dyadic} (hx : x ≠ 0) (hy : y ≠ 0) (hfx : x.Fits p) (hfy : y.Fits p)
    (hbelow : y.exponent < windowFloor p x y) :
    CutAt p (windowFloor p x y) (x.toReal + y.toReal) (windowSum p x y) := by
  -- Only the smaller operand reaches below the window, and then it is too small to move the leading
  -- digit far.
  have htop : y.top = y.exponent + bitLength y.mantissa.natAbs := rfl
  have htop' : x.top = x.exponent + bitLength x.mantissa.natAbs := rfl
  unfold Fits at hfx hfy
  have hfloor : windowFloor p x y = x.top - (p + 64) := by
    unfold windowFloor at hbelow ⊢
    omega
  have hkept : x.roundAt (windowFloor p x y) = x := roundAt_of_le (by omega)
  have hnear := abs_roundAt_sub_le (windowFloor p x y) y
  obtain ⟨i, hi⟩ := exists_roundAt_eq (windowFloor p x y) x
  obtain ⟨j, hj⟩ := exists_roundAt_eq (windowFloor p x y) y
  rw [hkept] at hi
  have hsum : (windowSum p x y).toReal = x.toReal + (y.roundAt (windowFloor p x y)).toReal := by
    rw [windowSum, if_neg hx, if_neg hy, hkept, toReal_add]
  refine ⟨⟨i + j, ?_⟩, ?_, ?_⟩
  · rw [hsum, hi, hj]
    push_cast
    ring
  · rw [hsum, add_sub_add_left_eq_sub]
    exact hnear
  · have hlead := two_zpow_top_le_toReal hx
    have hsmall : |y.toReal| ≤ 2 ^ (x.top - 3) :=
      y.abs_toReal_lt.le.trans (zpow_le_zpow_right₀ (by norm_num) (by omega))
    have hplace : (2 : ℝ) ^ windowFloor p x y ≤ 2 ^ (x.top - 3) := zpow_le_zpow_right₀ (by norm_num) (by omega)
    have heighth : (2 : ℝ) ^ (x.top - 3) = 2 ^ x.top / 8 := by
      rw [zpow_sub₀ (by norm_num)]
      norm_num
    have hquarter : (2 : ℝ) ^ (windowFloor p x y + p + 62) = 2 ^ x.top / 4 := by
      rw [show windowFloor p x y + p + 62 = x.top - 2 by omega, zpow_sub₀ (by norm_num)]
      norm_num
    have hcut := abs_sub_abs_le_abs_sub (y.roundAt (windowFloor p x y)).toReal y.toReal
    have htri := abs_sub_abs_le_abs_sub x.toReal (-(y.roundAt (windowFloor p x y)).toReal)
    rw [abs_neg, sub_neg_eq_add, ← hsum] at htri
    have hpos : (0 : ℝ) < 2 ^ x.top := by positivity
    rw [hquarter]
    linarith

theorem windowSum_exact_or_cut {p : Nat} {x y : Dyadic} (hx : x.Fits p) (hy : y.Fits p) :
    (windowSum p x y).toReal = x.toReal + y.toReal ∨
      CutAt p (windowFloor p x y) (x.toReal + y.toReal) (windowSum p x y) := by
  by_cases hx0 : x = 0
  · left
    rw [windowSum, if_pos hx0, hx0, toReal_zero, zero_add]
  by_cases hy0 : y = 0
  · left
    rw [windowSum, if_neg hx0, if_pos hy0, hy0, toReal_zero, add_zero]
  rcases Int.lt_or_le y.exponent (windowFloor p x y) with hlt | hle
  · exact .inr (cutAt_windowSum hx0 hy0 hx hy hlt)
  rcases Int.lt_or_le x.exponent (windowFloor p x y) with hlt' | hle'
  · right
    rw [windowSum_comm, windowFloor_comm, ← toReal_add, Dyadic.add_comm, toReal_add]
    exact cutAt_windowSum hy0 hx0 hy hx (windowFloor_comm p x y ▸ hlt')
  · left
    rw [windowSum, if_neg hx0, if_neg hy0, roundAt_of_le hle, roundAt_of_le hle', toReal_add]

section Sum

variable {p : Nat} (hp : 0 < p) {x y : Dyadic} (hx : x.Fits p) (hy : y.Fits p)

include hp hx hy

theorem nearest_addTo_iff :
    Nearest p (x.toReal + y.toReal) (x.addTo p y) ↔ ¬ Overshot p (x.toReal + y.toReal) (windowSum p x y) := by
  rw [addTo_eq_roundTo_windowSum]
  rcases windowSum_exact_or_cut hx hy with h | h
  · rw [← h]
    exact iff_of_true (nearest_roundTo hp _) (fun ho => lt_irrefl _ ho.2)
  · exact h.nearest_iff hp

theorem addTo_eq_of_exact {z : Dyadic} (hz : z.Fits p) (h : z.toReal = x.toReal + y.toReal) : x.addTo p y = z := by
  rw [addTo_eq_roundTo_windowSum]
  have hsum : (windowSum p x y).toReal = z.toReal := by
    rcases windowSum_exact_or_cut hx hy with hexact | hcut
    · rw [hexact, h]
    · rw [h]
      exact hcut.eq_of_fits hz h
  exact (nearest_roundTo hp _).unique (.of_eq hz hsum.symm)

theorem abs_addTo_sub_le :
    |(x.addTo p y).toReal - (x.toReal + y.toReal)| ≤
      2 ^ (-(p : Int)) * (1 + 2 ^ (-60 : Int)) * |x.toReal + y.toReal| := by
  have hround := (nearest_roundTo hp (windowSum p x y)).abs_sub_le hp
  have hunit : (2 : ℝ) ^ (-(p : Int)) ≤ 1 := zpow_le_one_of_nonpos₀ (by norm_num) (by omega)
  have hpos : (0 : ℝ) < 2 ^ (-(p : Int)) := by positivity
  have hcut : |(windowSum p x y).toReal - (x.toReal + y.toReal)| ≤
      2 ^ (-(p : Int)) * 2 ^ (-62 : Int) * |x.toReal + y.toReal| := by
    rcases windowSum_exact_or_cut hx hy with h | h
    · rw [h, sub_self, abs_zero]
      positivity
    · exact h.near_le
  rw [addTo_eq_roundTo_windowSum]
  generalize (windowSum p x y).toReal = s at *
  generalize ((windowSum p x y).roundTo p).toReal = a at *
  generalize x.toReal + y.toReal = r at *
  have hsize := abs_sub_abs_le_abs_sub s r
  have htri := abs_sub_le a s r
  have hprod : 2 ^ (-(p : Int)) * |s| ≤ 2 ^ (-(p : Int)) * (|r| + |s - r|) := by
    gcongr
    linarith
  have hagain : 2 ^ (-(p : Int)) * |s - r| ≤ 1 * |s - r| := by gcongr
  have hlast : (2 : ℝ) ^ (-(p : Int)) * 2 ^ (-60 : Int) * |r| = 4 * (2 ^ (-(p : Int)) * 2 ^ (-62 : Int) * |r|) := by
    norm_num
    ring
  have hnonneg : 0 ≤ 2 ^ (-(p : Int)) * 2 ^ (-62 : Int) * |r| := by positivity
  linarith

theorem addTo_eq_zero_iff : x.addTo p y = 0 ↔ x.toReal + y.toReal = 0 := by
  constructor
  · intro h
    by_contra hne
    have hclose := abs_addTo_sub_le hp hx hy
    have hunit : (2 : ℝ) ^ (-(p : Int)) ≤ 2 ^ (-1 : Int) := zpow_le_zpow_right₀ (by norm_num) (by omega)
    have hpos : 0 < |x.toReal + y.toReal| := abs_pos.mpr hne
    rw [h, toReal_zero, zero_sub, abs_neg] at hclose
    have hfactor : (2 : ℝ) ^ (-(p : Int)) * (1 + 2 ^ (-60 : Int)) < 1 := by
      norm_num at hunit ⊢
      linarith
    nlinarith
  · intro h
    exact addTo_eq_of_exact hp hx hy (fits_zero p) (by rw [toReal_zero, h])

end Sum

end Dyadic

namespace Phasor.BigFloat

open Dyadic

theorem isNearest_num_iff {r : ℝ} {x : Dyadic} : (num x).IsNearest r ↔ x.Nearest 96 r := by
  constructor
  · rintro ⟨z, hz, h⟩
    rwa [num.inj hz]
  · intro h
    exact ⟨x, rfl, h⟩

theorem add_eq (x y : Dyadic) : num x + num y = num (x.addTo 96 y) := rfl

theorem sub_eq (x y : Dyadic) : num x - num y = num (x.addTo 96 (-y)) := rfl

theorem isNearest_windowSum (x y : Dyadic) : (num x + num y).IsNearest (windowSum 96 x y).toReal := by
  rw [add_eq, addTo_eq_roundTo_windowSum]
  exact ⟨_, rfl, nearest_roundTo (by decide) _⟩

end Phasor.BigFloat
