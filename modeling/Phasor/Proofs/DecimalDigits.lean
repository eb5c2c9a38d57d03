import Phasor.Proofs.Nearest
import Phasor.Proofs.Printing

namespace Phasor.BigFloat

open Decimal (Digits Signed Spelled)

structure NearestDecimal (r : ℝ) (n : Nat) (k : Int) : Prop where
  many : 10 ^ 24 ≤ n
  few : n < 10 ^ 25
  best : ∀ (m : Nat) (l : Int), 10 ^ 24 ≤ m → m < 10 ^ 25 → (m, l) ≠ (n, k) →
    |n * 10 ^ (k - 24) - r| < |m * 10 ^ (l - 24) - r| ∨
    |n * 10 ^ (k - 24) - r| = |m * 10 ^ (l - 24) - r| ∧ (m : ℝ) * 10 ^ (l - 24) < n * 10 ^ (k - 24)

theorem NearestDecimal.unique {r : ℝ} {n m : Nat} {k l : Int} (hn : NearestDecimal r n k)
    (hm : NearestDecimal r m l) : (m, l) = (n, k) := by
  by_contra hne
  rcases hn.best m l hm.many hm.few hne with h | ⟨h, h'⟩
  · rcases hm.best n k hn.many hn.few (Ne.symm hne) with h₁ | ⟨h₁, -⟩ <;> linarith
  · rcases hm.best n k hn.many hn.few (Ne.symm hne) with h₁ | ⟨-, h₁⟩ <;> linarith

theorem mul_zpow_le_of_lt {m : Nat} {k l : Int} (hm : m < 10 ^ 25) (hl : l < k) :
    (m : ℝ) * 10 ^ (l - 24) ≤ (10 ^ 24 - 1 / 10) * 10 ^ (k - 24) := by
  have hle : (m : ℝ) ≤ 10 ^ 25 - 1 := by
    have : (m : ℝ) + 1 ≤ 10 ^ 25 := by exact_mod_cast hm
    linarith
  have hpow : (10 : ℝ) ^ (l - 24) ≤ 10 ^ (k - 24 - 1) := zpow_le_zpow_right₀ (by norm_num) (by omega)
  calc (m : ℝ) * 10 ^ (l - 24) ≤ (10 ^ 25 - 1) * 10 ^ (k - 24 - 1) :=
        mul_le_mul hle hpow (by positivity) (by norm_num)
    _ = (10 ^ 24 - 1 / 10) * 10 ^ (k - 24) := by
        rw [zpow_sub₀ (by norm_num), zpow_one]
        ring

theorem exists_mul_zpow_eq {k l : Int} (h : k ≤ l) (m : Nat) :
    ∃ j : Nat, (m : ℝ) * 10 ^ (l - 24) = j * 10 ^ (k - 24) ∧ (l = k ∧ j = m ∨ 10 * m ≤ j) := by
  obtain ⟨i, rfl⟩ := Int.le.dest h
  refine ⟨m * 10 ^ i, ?_, ?_⟩
  · rw [show k + i - 24 = k - 24 + i by omega, zpow_add₀ (by norm_num), zpow_natCast]
    push_cast
    ring
  · rcases Nat.eq_zero_or_pos i with rfl | hi
    · left
      simp
    · right
      rw [Nat.mul_comm]
      exact Nat.mul_le_mul_left m (Nat.le_self_pow hi.ne' 10)

section Best

variable {r : ℝ} {n : Nat} {k : Int} (hr : 0 < r) (hdown : n * 10 ^ (k - 24) ≤ r + 10 ^ (k - 24) / 2)
  (hup : r < n * 10 ^ (k - 24) + 10 ^ (k - 24) / 2)

include hr hdown hup

theorem multiple_best {j : Nat} (hj : j ≠ n) :
    |n * 10 ^ (k - 24) - r| < |j * 10 ^ (k - 24) - r| ∨
    |n * 10 ^ (k - 24) - r| = |j * 10 ^ (k - 24) - r| ∧ (j : ℝ) * 10 ^ (k - 24) < n * 10 ^ (k - 24) := by
  have hu : (0 : ℝ) < 10 ^ (k - 24) := by positivity
  have hbest := Dyadic.halfUp_best (q := n) (j := j) hr hu (by exact_mod_cast hdown) (by exact_mod_cast hup)
    (by omega)
  simp only [Int.cast_natCast] at hbest
  rwa [abs_of_nonneg (by positivity : 0 ≤ (j : ℝ) * 10 ^ (k - 24)),
    abs_of_nonneg (by positivity : 0 ≤ (n : ℝ) * 10 ^ (k - 24))] at hbest

theorem nearestDecimal_of_halfUp (hmany : 10 ^ 24 ≤ n) (hfew : n < 10 ^ 25)
    (hleast : 10 ^ 24 * 10 ^ (k - 24) ≤ r + 10 ^ (k - 24) / 20) : NearestDecimal r n k := by
  -- The nearest multiple of the last place is the nearest number, also against those with a smaller
  -- last place: they lie below a power of ten that is not far above `r`.
  refine ⟨hmany, hfew, ?_⟩
  intro m l hm hm' hne
  rcases Int.lt_or_le l k with hlt | hle
  · have hv := mul_zpow_le_of_lt hm' hlt
    have hu : (0 : ℝ) < 10 ^ (k - 24) := by positivity
    have hn : (10 : ℝ) ^ 24 * 10 ^ (k - 24) ≤ n * 10 ^ (k - 24) := by
      gcongr
      exact_mod_cast hmany
    generalize (m : ℝ) * 10 ^ (l - 24) = v at *
    have hdist : |v - r| = r - v := by
      rw [abs_sub_comm]
      apply abs_of_pos
      linarith
    rw [hdist]
    rcases le_or_gt (10 ^ 24 * 10 ^ (k - 24)) r with hge | hlt
    · left
      have hnear : |n * 10 ^ (k - 24) - r| ≤ r - 10 ^ 24 * 10 ^ (k - 24) := by
        rw [← abs_of_nonneg (sub_nonneg.mpr hge), abs_sub_comm r]
        have hten : (10 : ℝ) ^ 24 = (10 ^ 24 : Nat) := by norm_num
        rw [hten]
        by_cases hpow : 10 ^ 24 = n
        · rw [hpow]
        · rcases multiple_best hr hdown hup hpow with h | h
          · exact h.le
          · exact h.1.le
      linarith
    · -- the digits were rounded up to the power of ten
      have heq : (n : ℝ) = 10 ^ 24 := by
        have hlt' : (n : ℝ) * 10 ^ (k - 24) < (10 ^ 24 + 1) * 10 ^ (k - 24) := by linarith
        have hn' : n < 10 ^ 24 + 1 := by exact_mod_cast lt_of_mul_lt_mul_right hlt' hu.le
        exact_mod_cast le_antisymm (Nat.lt_add_one_iff.mp hn') hmany
      rw [heq, abs_of_pos (by linarith)]
      rcases lt_or_ge (10 ^ 24 * 10 ^ (k - 24) - r) (r - v) with h | h
      · exact .inl h
      · exact .inr ⟨by linarith, by linarith⟩
  · obtain ⟨j, hj, hcases⟩ := exists_mul_zpow_eq hle m
    rw [hj]
    apply multiple_best hr hdown hup
    rintro rfl
    rcases hcases with ⟨rfl, rfl⟩ | hlarge
    · exact hne rfl
    · omega

end Best

theorem Settled.nearestDecimal {a : ℚ} (ha : 0 < a) {n : Nat} {k : Int} (h : Settled a n k) :
    NearestDecimal a n k := by
  have hmany := h.many ha.le
  obtain ⟨hlow, hhigh, hfew, hleast⟩ := (settled_iff ha.le).mp h
  unfold digits at hmany hfew hleast
  have hu : (0 : ℝ) < 10 ^ (k - 24) := by positivity
  have hback : (a : ℝ) = (a * 10 ^ (24 - k) : ℚ) * 10 ^ (k - 24) := by
    push_cast
    rw [mul_assoc, ← zpow_add₀ (by norm_num), sub_add_sub_cancel, sub_self, zpow_zero, mul_one]
  generalize a * 10 ^ (24 - k) = b at *
  have hlow' : ((n : ℚ) : ℝ) ≤ ((b + 1 / 2 : ℚ) : ℝ) := Rat.cast_le.mpr hlow
  have hhigh' : ((b + 1 / 2 : ℚ) : ℝ) < ((n + 1 : ℚ) : ℝ) := Rat.cast_lt.mpr hhigh
  have hleast' : ((10 ^ 25 : ℚ) : ℝ) ≤ ((10 * b + 1 / 2 : ℚ) : ℝ) := Rat.cast_le.mpr hleast
  push_cast at hlow' hhigh' hleast'
  apply nearestDecimal_of_halfUp (by exact_mod_cast ha) _ _ hmany hfew <;> rw [hback] <;> nlinarith

theorem mul_zpow_lt_of_lt {a : ℚ} {k : Int} (h : a < 10 ^ k) (i : Int) :
    a * 10 ^ ((digits : Int) - 1 - (k + i)) < 10 ^ (24 - i) := by
  calc a * 10 ^ ((digits : Int) - 1 - (k + i)) < 10 ^ k * 10 ^ ((digits : Int) - 1 - (k + i)) := by gcongr
    _ = 10 ^ (24 - i) := by
        rw [← zpow_add₀ (by norm_num)]
        congr 1
        unfold digits
        omega

theorem rounded_le_of_lt_zpow {a : ℚ} {k : Int} (h : a < 10 ^ k) : rounded a k ≤ 10 ^ 24 := by
  have hscaled := mul_zpow_lt_of_lt h 0
  rw [add_zero] at hscaled
  rw [← Nat.lt_add_one_iff, rounded, Nat.floor_lt' (by norm_num)]
  norm_num at *
  linarith

theorem rounded_succ_lt_of_lt_zpow {a : ℚ} {k : Int} (h : a < 10 ^ k) : rounded a (k + 1) < 10 ^ 24 := by
  have hscaled := mul_zpow_lt_of_lt h 1
  rw [rounded, Nat.floor_lt' (by norm_num)]
  norm_num at *
  linarith

/-- The first guess is above the decimal exponent, and one above it the digits round up to a power
of ten, although with the exponent itself there is room for a digit more. -/
def RoundsEarly (x : Dyadic) : Prop :=
  Int.log 10 |x.toRat| < decimalEstimate x ∧
  10 ^ 25 - 5 ≤ |x.toRat| * 10 ^ (24 - Int.log 10 |x.toRat|) ∧
  |x.toRat| * 10 ^ (24 - Int.log 10 |x.toRat|) < 10 ^ 25 - 1 / 2

section Above

variable {x : Dyadic} (hx : x ≠ 0) {n : Nat} {k : Int} (h : Settled |x.toRat| n k)

include hx h

theorem settle_at_succ_log {fuel : Nat} (last : Nat) (hfuel : 2 ≤ fuel) :
    settleExponent x fuel (Int.log 10 |x.toRat| + 1) last =
      if rounded |x.toRat| (Int.log 10 |x.toRat| + 1) = 10 ^ 24 then (10 ^ 24, Int.log 10 |x.toRat| + 1)
      else (n, k) := by
  obtain ⟨fuel, rfl⟩ := Nat.exists_eq_add_of_le' hfuel
  have hlt : |x.toRat| < 10 ^ (Int.log 10 |x.toRat| + 1) := Int.lt_zpow_succ_log_self (b := 10) (by decide) _
  have hle := rounded_le_of_lt_zpow hlt
  obtain ⟨hlow, hhigh⟩ := h.log_bounds (abs_toRat_pos hx)
  rw [settleExponent_succ, if_neg (by unfold digits; omega)]
  by_cases htop : rounded |x.toRat| (Int.log 10 |x.toRat| + 1) = 10 ^ 24
  · rw [if_pos htop, htop, if_neg (by decide)]
  · rw [if_neg htop, if_pos (by unfold digits; omega), add_sub_cancel_right]
    -- fewer digits one above it, so the exponent is not moved up by a carry
    have hk : k = Int.log 10 |x.toRat| := by
      by_contra hne
      obtain rfl : k = Int.log 10 |x.toRat| + 1 := by omega
      have hmany := h.many (abs_nonneg _)
      rw [← h.rounded_eq] at hmany
      unfold digits at hmany
      omega
    rw [← hk]
    exact h.settleExponent_eq le_rfl (by omega) _

theorem settle_from_above (hk : Int.log 10 |x.toRat| < decimalEstimate x)
    (hk' : decimalEstimate x ≤ Int.log 10 |x.toRat| + 2) :
    settleExponent x 4 (decimalEstimate x) 0 =
      if rounded |x.toRat| (Int.log 10 |x.toRat| + 1) = 10 ^ 24 then (10 ^ 24, Int.log 10 |x.toRat| + 1)
      else (n, k) := by
  have hlt : |x.toRat| < 10 ^ (Int.log 10 |x.toRat| + 1) := Int.lt_zpow_succ_log_self (b := 10) (by decide) _
  rcases Int.lt_or_eq_of_le hk' with hlt' | heq
  · rw [show decimalEstimate x = Int.log 10 |x.toRat| + 1 by omega]
    exact settle_at_succ_log hx h 0 (by decide)
  · have hfew := rounded_succ_lt_of_lt_zpow hlt
    rw [add_assoc, show (1 + 1 : Int) = 2 from rfl] at hfew
    rw [heq, settleExponent_succ, if_neg (by unfold digits; omega),
      if_pos (by unfold digits; omega), show Int.log 10 |x.toRat| + 2 - 1 = Int.log 10 |x.toRat| + 1 by omega]
    exact settle_at_succ_log hx h _ (by decide)

end Above

theorem le_rounded_iff {a : ℚ} (ha : 0 ≤ a) (k : Int) (n : Nat) :
    n ≤ rounded a k ↔ (n : ℚ) ≤ a * 10 ^ (24 - k) + 1 / 2 := by
  rw [rounded, Nat.le_floor_iff (by positivity), show (digits : Int) - 1 - k = 24 - k by unfold digits; omega]

theorem rounded_succ_log_eq_iff {x : Dyadic} : rounded |x.toRat| (Int.log 10 |x.toRat| + 1) = 10 ^ 24 ↔
    10 ^ 25 - 5 ≤ |x.toRat| * 10 ^ (24 - Int.log 10 |x.toRat|) := by
  have hlt : |x.toRat| < 10 ^ (Int.log 10 |x.toRat| + 1) := Int.lt_zpow_succ_log_self (b := 10) (by decide) _
  have hle := rounded_le_of_lt_zpow hlt
  have hshift : (10 : ℚ) ^ (24 - (Int.log 10 |x.toRat| + 1)) = 10 ^ (24 - Int.log 10 |x.toRat|) / 10 := by
    rw [← sub_sub, zpow_sub₀ (by norm_num), zpow_one]
  rw [le_antisymm_iff, and_iff_right hle, le_rounded_iff (abs_nonneg _), hshift]
  push_cast
  constructor <;> intro h <;> linarith

theorem settled_or_roundsEarly {x : Dyadic} (hx : x ≠ 0) (hlow : Int.log 10 |x.toRat| - 2 ≤ decimalEstimate x)
    (hhigh : decimalEstimate x ≤ Int.log 10 |x.toRat| + 2) :
    ∃ n k, settleExponent x 4 (decimalEstimate x) 0 = (n, k) ∧
      (Settled |x.toRat| n k ∧ ¬ RoundsEarly x ∨ RoundsEarly x ∧ n = 10 ^ 24 ∧ k = Int.log 10 |x.toRat| + 1) := by
  obtain ⟨n, k, h⟩ := exists_settled (abs_toRat_pos hx)
  obtain ⟨hk, hk'⟩ := h.log_bounds (abs_toRat_pos hx)
  rcases Int.lt_or_le (Int.log 10 |x.toRat|) (decimalEstimate x) with habove | hbelow
  · rw [settle_from_above hx h habove hhigh]
    split
    · rename_i htop
      refine ⟨_, _, rfl, ?_⟩
      rcases lt_or_ge (|x.toRat| * 10 ^ (24 - Int.log 10 |x.toRat|)) (10 ^ 25 - 1 / 2) with hlt | hge
      · exact .inr ⟨⟨habove, rounded_succ_log_eq_iff.mp htop, hlt⟩, rfl, rfl⟩
      · left
        refine ⟨⟨htop, by decide, ?_⟩, fun hearly => absurd hearly.2.2 (not_lt.mpr hge)⟩
        rw [add_sub_cancel_right, le_rounded_iff (abs_nonneg _)]
        push_cast
        unfold digits
        linarith
    · rename_i htop
      exact ⟨n, k, rfl, .inl ⟨h, fun hearly => htop (rounded_succ_log_eq_iff.mpr hearly.2.1)⟩⟩
  · refine ⟨n, k, h.settleExponent_eq (by omega) (by omega) 0, .inl ⟨h, fun hearly => ?_⟩⟩
    exact absurd hearly.1 (Int.not_lt.mpr hbelow)

theorem RoundsEarly.not_nearestDecimal {x : Dyadic} (hx : x ≠ 0) (h : RoundsEarly x) :
    ¬ NearestDecimal |x.toReal| (10 ^ 24) (Int.log 10 |x.toRat| + 1) := by
  intro hnearest
  obtain ⟨n, k, hs⟩ := exists_settled (abs_toRat_pos hx)
  have hs' := hs.nearestDecimal (abs_toRat_pos hx)
  have habs : ((|x.toRat| : ℚ) : ℝ) = |x.toReal| := Rat.cast_abs _
  rw [habs] at hs'
  obtain ⟨rfl, rfl⟩ := Prod.mk.inj (hnearest.unique hs')
  have hleast := hs.least
  rw [add_sub_cancel_right, le_rounded_iff (abs_nonneg _)] at hleast
  have hlt := h.2.2
  push_cast at hleast
  unfold digits at hleast
  linarith

theorem getLast?_significant {n : Nat} (hn : n ≠ 0) : (significant n).getLast? ≠ some '0' := by
  obtain ⟨z, hz⟩ := exists_toDigits_eq hn
  unfold significant at *
  split at hz
  · rename_i hnil
    -- there would be no digit but zero
    have hvalue := congrArg (Nat.ofDigitChars 10 · 0) hz
    rw [List.singleton_append, ← List.replicate_succ] at hvalue
    simp only [ofDigitChars_replicate_zero, Nat.ofDigitChars_ten_toDigits] at hvalue
    omega
  · rw [List.getLast?_reverse]
    intro hhead
    have hnot := List.head?_dropWhile_not (· == '0') (Nat.toDigits 10 n).reverse
    rw [hhead] at hnot
    exact absurd hnot (by decide)

theorem not_mem_of_digits {cs : List Char} (h : Digits cs) : 'e' ∉ cs :=
  fun he => absurd (h _ he) (by decide)

theorem mem_layout_iff {ds : List Char} (hd : Digits ds) (k : Int) : 'e' ∈ layout ds k ↔ k < -5 ∨ 25 ≤ k := by
  have hds := not_mem_of_digits hd
  have hzeros (z : Nat) := not_mem_of_digits (digits_replicate_zero z)
  have htake (i : Nat) : 'e' ∉ ds.take i := fun h => hds (List.mem_of_mem_take h)
  have hdrop (i : Nat) : 'e' ∉ ds.drop i := fun h => hds (List.mem_of_mem_drop h)
  unfold layout digits
  split
  · rename_i hk
    refine iff_of_false ?_ (by omega)
    split
    · simp only
      split
      · simp only [List.mem_append, not_or]
        exact ⟨hds, hzeros _⟩
      · simp only [List.mem_append, List.mem_cons, not_or]
        exact ⟨htake _, by decide, hdrop _⟩
    · simp only [List.mem_append, List.mem_cons, not_or]
      exact ⟨⟨by decide, by decide, hzeros _⟩, hds⟩
  · rename_i hk
    refine iff_of_true ?_ (by omega)
    split <;> simp

/-- The digits of a number that is not zero, when the first guess is off by at most two. The loop
ends, the text is a numeral for the number that it ends with, has no zero at the end of its
fraction, and has an exponent exactly outside of `-5 ≤ k < 25`. The number that it ends with is the
nearest of 25 digits, and the only such number, unless the digits round up to a power of ten at a
guess that was too high. -/
theorem printed_digits_are_nearest {x : Dyadic} (hx : x ≠ 0)
    (hguess : (decimalEstimate x - Int.log 10 |x.toRat|).natAbs ≤ 2) :
    ∃ n k d, settleExponent x 4 (decimalEstimate x) 0 = (n, k) ∧ 10 ^ 24 ≤ n ∧ n < 10 ^ 25 ∧
      ((∀ m l, NearestDecimal |x.toReal| m l ↔ (m, l) = (n, k)) ↔ ¬ RoundsEarly x) ∧
      (RoundsEarly x → n = 10 ^ 24 ∧ k = Int.log 10 |x.toRat| + 1) ∧
      Decimal.scan? (toText (num x)).toList = some d ∧
      d.value = (if x.toRat < 0 then -1 else 1) * (n * 10 ^ (k - 24)) ∧
      d.fraction.getLast? ≠ some '0' ∧
      ('e' ∈ (toText (num x)).toList ↔ k < -5 ∨ 25 ≤ k) := by
  obtain ⟨n, k, hsettle, hcases⟩ := settled_or_roundsEarly hx (by omega) (by omega)
  have hrange : 10 ^ (digits - 1) ≤ n ∧ n < 10 ^ digits := by
    rcases hcases with ⟨hs, -⟩ | ⟨-, rfl, -⟩
    · exact ⟨hs.many (abs_nonneg _), hs.few⟩
    · decide
  have hn : n ≠ 0 := by
    unfold digits at hrange
    omega
  obtain ⟨z, hz, hne, hd, hweight⟩ := exists_significant hrange.1 hrange.2
  obtain ⟨d, hnegative, hspelled, hlays, hfraction⟩ := exists_spelled_layout (signed_mantissa x) hne hd k
  have htext := toText_of_settleExponent hx hsettle
  have hsign : 'e' ∉ (if x.mantissa < 0 then ['-'] else []) := by
    split <;> decide
  refine ⟨n, k, d, hsettle, hrange.1, hrange.2, ?_, ?_, ?_, ?_, ?_, ?_⟩
  · rcases hcases with ⟨hs, hearly⟩ | ⟨hearly, rfl, rfl⟩
    · refine iff_of_true (fun m l => ?_) hearly
      have hnearest := hs.nearestDecimal (abs_toRat_pos hx)
      rw [show ((|x.toRat| : ℚ) : ℝ) = |x.toReal| from Rat.cast_abs _] at hnearest
      constructor
      · exact hnearest.unique
      · intro h
        obtain ⟨rfl, rfl⟩ := Prod.mk.inj h
        exact hnearest
    · exact iff_of_false (fun h => hearly.not_nearestDecimal hx ((h _ _).mpr rfl)) (not_not.mpr hearly)
  · intro hearly
    exact (hcases.resolve_left (fun h => h.2 hearly)).2
  · rw [htext, String.toList_ofList]
    exact Decimal.scan?_of_spelled hspelled
  · rw [hlays.value_eq hz hweight, hnegative]
    simp only [decide_eq_true_eq, mantissa_neg_iff]
  · rcases hfraction with h | h
    · rw [h]
      simp
    · rw [h]
      exact getLast?_significant hn
  · rw [htext, String.toList_ofList, List.mem_append, or_iff_right hsign]
    exact mem_layout_iff hd k

theorem log_eq_of_bounds {a : ℚ} {f : Int} (hlow : (10 ^ 25 - 5) * 10 ^ (f - 24) ≤ a)
    (hhigh : a < (10 ^ 25 - 1 / 2) * 10 ^ (f - 24)) : Int.log 10 a = f := by
  have hpos : (0 : ℚ) < 10 ^ (f - 24) := by positivity
  have ha : 0 < a := lt_of_lt_of_le (mul_pos (by norm_num) hpos) hlow
  have hpow : (10 : ℚ) ^ f = 10 ^ 24 * 10 ^ (f - 24) := by
    rw [← zpow_natCast, ← zpow_add₀ (by norm_num)]
    congr 1
    omega
  have hpow' : (10 : ℚ) ^ (f + 1) = 10 ^ 25 * 10 ^ (f - 24) := by
    rw [zpow_add₀ (by norm_num), hpow, zpow_one]
    ring
  apply le_antisymm
  · refine Int.lt_add_one_iff.mp ((Int.lt_zpow_iff_log_lt (by decide) ha).mp ?_)
    push_cast
    rw [hpow']
    linarith
  · refine (Int.zpow_le_iff_le_log (by decide) ha).mp ?_
    push_cast
    rw [hpow]
    linarith

theorem roundsEarly_of_bounds {x : Dyadic} {f : Int} (hlow : (10 ^ 25 - 5) * 10 ^ (f - 24) ≤ |x.toRat|)
    (hhigh : |x.toRat| < (10 ^ 25 - 1 / 2) * 10 ^ (f - 24)) (hguess : f < decimalEstimate x) : RoundsEarly x := by
  have hpos : (0 : ℚ) < 10 ^ (f - 24) := by positivity
  have hinv : (10 : ℚ) ^ (24 - f) = (10 ^ (f - 24))⁻¹ := by
    rw [← zpow_neg, neg_sub]
  unfold RoundsEarly
  rw [log_eq_of_bounds hlow hhigh, hinv, ← div_eq_mul_inv, le_div_iff₀ hpos, div_lt_iff₀ hpos]
  exact ⟨hguess, hlow, hhigh⟩

/-- A number of 96 binary digits, three units of the 25th decimal digit below `10 ^ 44240665`. -/
def belowPowerOfTen : Dyadic := Dyadic.scaled 39614081541758805372246119621 146964213

theorem cast_mul_pow_pow (c b i n : Nat) : ((c * (b ^ i) ^ n : Nat) : ℚ) = c * (b : ℚ) ^ ((i : Int) * n) := by
  push_cast
  rw [zpow_mul, zpow_natCast, zpow_natCast]

theorem abs_belowPowerOfTen : |belowPowerOfTen.toRat| = 39614081541758805372246119621 * 2 ^ (146964213 : Int) := by
  rw [belowPowerOfTen, Dyadic.toRat_scaled]
  apply abs_of_pos
  positivity

theorem belowPowerOfTen_bounds :
    (10 ^ 25 - 5) * 10 ^ (44240664 - 24 : Int) ≤ |belowPowerOfTen.toRat| ∧
    |belowPowerOfTen.toRat| < (10 ^ 25 - 1 / 2) * 10 ^ (44240664 - 24 : Int) := by
  -- the powers are kept as powers of powers, which the kernel multiplies out
  have hlow : (((10 ^ 25 - 5) * (10 ^ 11060160) ^ 4 : Nat) : ℚ) ≤
      ((39614081541758805372246119621 * (2 ^ 16329357) ^ 9 : Nat) : ℚ) := Nat.cast_le.mpr (by decide +kernel)
  have hhigh : ((2 * 39614081541758805372246119621 * (2 ^ 16329357) ^ 9 : Nat) : ℚ) <
      (((2 * 10 ^ 25 - 1) * (10 ^ 11060160) ^ 4 : Nat) : ℚ) := Nat.cast_lt.mpr (by decide +kernel)
  rw [cast_mul_pow_pow, cast_mul_pow_pow, show ((11060160 : Nat) : Int) * (4 : Nat) = 44240664 - 24 by decide,
    show ((16329357 : Nat) : Int) * (9 : Nat) = 146964213 by decide] at hlow hhigh
  simp only [Nat.cast_ofNat] at hlow hhigh
  rw [abs_belowPowerOfTen]
  generalize (10 : ℚ) ^ (44240664 - 24 : Int) = t at *
  generalize (2 : ℚ) ^ (146964213 : Int) = b at *
  norm_num at *
  constructor <;> linarith

theorem digits_round_early_below_power_of_ten :
    belowPowerOfTen.Fits 96 ∧ Int.log 10 |belowPowerOfTen.toRat| = 44240664 ∧
    decimalEstimate belowPowerOfTen = 44240665 ∧
    settleExponent belowPowerOfTen 4 (decimalEstimate belowPowerOfTen) 0 = (10 ^ 24, 44240665) ∧
    toText (num belowPowerOfTen) = "1e44240665" ∧
    ¬ NearestDecimal |belowPowerOfTen.toReal| (10 ^ 24) 44240665 := by
  obtain ⟨hlow, hhigh⟩ := belowPowerOfTen_bounds
  have hlog := log_eq_of_bounds hlow hhigh
  have hguess : decimalEstimate belowPowerOfTen = 44240665 := by decide +kernel
  have hearly : RoundsEarly belowPowerOfTen := roundsEarly_of_bounds hlow hhigh (by rw [hguess]; decide)
  have hne : belowPowerOfTen ≠ 0 := by decide +kernel
  obtain ⟨n, k, hsettle, hcases⟩ := settled_or_roundsEarly hne (by rw [hlog, hguess]; decide)
    (by rw [hlog, hguess]; decide)
  obtain ⟨-, hn, hk⟩ := hcases.resolve_left (fun h => h.2 hearly)
  have hmiss := hearly.not_nearestDecimal hne
  rw [hn, hk, hlog] at hsettle
  rw [hlog] at hmiss
  refine ⟨Dyadic.fits_scaled (by decide) (by decide) _, hlog, hguess, hsettle, ?_, hmiss⟩
  rw [toText_of_settleExponent hne hsettle, if_neg (by decide +kernel)]
  decide +kernel

theorem printed_digits_are_nearest_small :
    Dyadic.scaled 1 (-20) ≠ 0 ∧
    (decimalEstimate (Dyadic.scaled 1 (-20)) - Int.log 10 |(Dyadic.scaled 1 (-20)).toRat|).natAbs ≤ 2 ∧
    ∃ d, Decimal.scan? (toText (num (Dyadic.scaled 1 (-20)))).toList = some d ∧ d.fraction.getLast? ≠ some '0' := by
  have hne : Dyadic.scaled 1 (-20) ≠ 0 := by decide +kernel
  have hguess : decimalEstimate (Dyadic.scaled 1 (-20)) = -7 := by decide +kernel
  have hsize : |(Dyadic.scaled 1 (-20)).toRat| = 2 ^ (-20 : Int) := by
    rw [Dyadic.toRat_scaled]
    norm_num
  have hlog : Int.log 10 |(Dyadic.scaled 1 (-20)).toRat| = -7 := by
    rw [hsize]
    apply le_antisymm
    · exact Int.lt_add_one_iff.mp ((Int.lt_zpow_iff_log_lt (by decide) (by norm_num)).mp (by norm_num))
    · exact (Int.zpow_le_iff_le_log (by decide) (by norm_num)).mp (by norm_num)
  have hclose : (decimalEstimate (Dyadic.scaled 1 (-20)) - Int.log 10 |(Dyadic.scaled 1 (-20)).toRat|).natAbs ≤ 2 := by
    rw [hguess, hlog]
    decide
  obtain ⟨n, k, d, -, -, -, -, -, hread, -, hzero, -⟩ := printed_digits_are_nearest hne hclose
  exact ⟨hne, hclose, d, hread, hzero⟩

end Phasor.BigFloat
