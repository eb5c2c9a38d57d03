import Phasor.BigFloat.Elementary
import Phasor.Proofs.Addition

namespace Dyadic

protected theorem neg_neg (x : Dyadic) : - -x = x := by
  rw [← toRat_inj, toRat_neg, toRat_neg, neg_neg]

protected theorem neg_eq_zero {x : Dyadic} : -x = 0 ↔ x = 0 := by
  rw [← toRat_inj, ← toRat_inj, toRat_neg, toRat_zero, neg_eq_zero]

theorem eq_zero_of_mantissa {x : Dyadic} (h : x.mantissa = 0) : x = 0 := by
  by_contra hne
  exact mantissa_ne_zero hne h

theorem top_neg (x : Dyadic) : (-x).top = x.top := by
  rw [top, top, mantissa_neg, exponent_neg, Int.natAbs_neg]

theorem roundAt_neg (f : Int) (x : Dyadic) : (-x).roundAt f = -x.roundAt f := by
  rw [roundAt, roundAt, exponent_neg, mantissa_neg, shiftRound_neg, scaled_neg]
  split <;> rfl

theorem addTo_neg (p : Nat) (x y : Dyadic) : (-x).addTo p (-y) = -x.addTo p y := by
  have hsum (a b : Dyadic) : -a + -b = -(a + b) := by
    rw [← toRat_inj, toRat_add, toRat_neg, toRat_neg, toRat_neg, toRat_add, neg_add]
  simp only [addTo, Dyadic.neg_eq_zero, top_neg, roundAt_neg, hsum, roundTo_neg]
  split
  · rfl
  · split <;> rfl

theorem subTo_neg (p : Nat) (x y : Dyadic) : (-x).subTo p (-y) = -x.subTo p y :=
  addTo_neg p x (-y)

theorem mulTo_neg_left (p : Nat) (x y : Dyadic) : (-x).mulTo p y = -x.mulTo p y := by
  rw [mulTo, mulTo, Dyadic.neg_mul, roundTo_neg]

theorem mulTo_comm (p : Nat) (x y : Dyadic) : x.mulTo p y = y.mulTo p x := by
  rw [mulTo, mulTo, Dyadic.mul_comm]

theorem mulTo_neg_right (p : Nat) (x y : Dyadic) : x.mulTo p (-y) = -x.mulTo p y := by
  rw [mulTo_comm, mulTo_neg_left, mulTo_comm]

theorem roundScaled_zero (p : Nat) (e : Int) : roundScaled p 0 e = 0 := by
  rw [← toReal_inj, roundScaled, toReal_scaled, toReal_zero]
  simp [bitLength, shiftRound]

theorem roundTo_zero (p : Nat) : roundTo p 0 = 0 :=
  roundScaled_zero p 0

theorem divTo_neg_left (p : Nat) (x y : Dyadic) : (-x).divTo p y = -x.divTo p y := by
  rw [divTo, divTo, mantissa_neg, exponent_neg, roundQuotient_neg_left]
  split
  · exact Dyadic.neg_zero.symm
  · rfl

theorem zero_divTo (p : Nat) (y : Dyadic) : divTo p 0 y = 0 := by
  have hmantissa : (0 : Dyadic).mantissa = 0 := rfl
  rw [divTo, roundQuotient, hmantissa, Int.zero_shiftLeft, Int.zero_tdiv]
  split
  · rfl
  · exact roundScaled_zero _ _

theorem abs_neg_eq (x : Dyadic) : (-x).abs = x.abs := by
  rw [abs, abs, mantissa_neg]
  rcases Int.lt_trichotomy x.mantissa 0 with hneg | hzero | hpos
  · rw [if_neg (by omega), if_pos hneg]
  · rw [eq_zero_of_mantissa hzero]
    rfl
  · rw [if_pos (by omega), if_neg (by omega), Dyadic.neg_neg]

end Dyadic

namespace Phasor.Binary64

open Dyadic (bitLength lt_two_pow_bitLength)

theorem shiftEven_le {m s : Nat} (h : m < 2 ^ (53 + s)) : shiftEven m s ≤ 2 ^ 53 := by
  have hquot : m / 2 ^ s < 2 ^ 53 := by
    rw [Nat.div_lt_iff_lt_mul (Nat.two_pow_pos s), ← Nat.pow_add]
    exact h
  unfold shiftEven
  simp only [Nat.shiftRight_eq_div_pow]
  split <;> omega

theorem ofScaled_le {m : Nat} {e : Int} {k : Nat} (hk : 2 ≤ k) (hk' : k ≤ 2047) (htop : e + bitLength m + 1023 ≤ k) :
    ofScaled m e ≤ k <<< 52 := by
  have hm := lt_two_pow_bitLength m
  simp only [ofScaled, Nat.shiftLeft_eq]
  split
  · exact Nat.zero_le _
  rw [if_neg (by omega)]
  generalize hunit : max (e + (bitLength m : Int) - 53) (-1074) = unit
  have hq : (if e ≤ unit then shiftEven m (unit - e).toNat else m * 2 ^ (e - unit).toNat) ≤ 2 ^ 53 := by
    split
    · apply shiftEven_le
      exact hm.trans_le (Nat.pow_le_pow_right (by decide) (by omega))
    · calc m * 2 ^ (e - unit).toNat ≤ 2 ^ bitLength m * 2 ^ (e - unit).toNat := Nat.mul_le_mul_right _ hm.le
        _ ≤ 2 ^ 53 := by
            rw [← Nat.pow_add]
            exact Nat.pow_le_pow_right (by decide) (by omega)
  have hfield : (unit + 1074).toNat + 2 ≤ k := by omega
  calc (unit + 1074).toNat * 2 ^ 52 +
        (if e ≤ unit then shiftEven m (unit - e).toNat else m * 2 ^ (e - unit).toNat) ≤
        (unit + 1074).toNat * 2 ^ 52 + 2 ^ 53 := Nat.add_le_add_left hq _
    _ = ((unit + 1074).toNat + 2) * 2 ^ 52 := by ring
    _ ≤ k * 2 ^ 52 := Nat.mul_le_mul_right _ hfield

theorem ofScaled_le_infinity (m : Nat) (e : Int) : ofScaled m e ≤ infinity := by
  rcases le_or_gt (e + bitLength m : Int) 1024 with hle | hgt
  · exact ofScaled_le (k := 2047) (by decide) (by decide) (by push_cast; omega)
  · simp only [ofScaled, if_pos hgt]
    split
    · exact Nat.zero_le _
    · exact Nat.le_refl _

theorem toNat_withSign (negative : Bool) {n : Nat} (hn : n < 2 ^ 63) :
    (withSign negative n).toNat = if negative then 2 ^ 63 + n else n := by
  unfold withSign
  rw [Nat.toUInt64, UInt64.toNat_ofNat', Nat.one_shiftLeft]
  apply Nat.mod_eq_of_lt
  split <;> omega

theorem toDyadic?_withSign (negative : Bool) {pattern : Nat} (h : pattern ≤ infinity) :
    toDyadic? (withSign negative pattern) =
      if pattern < infinity then some (if negative then -magnitude pattern else magnitude pattern) else none := by
  have hlt : pattern < 2 ^ 63 := h.trans_lt (by decide)
  unfold toDyadic?
  simp only [toNat_withSign negative hlt, Nat.shiftLeft_eq, Nat.one_mul]
  cases negative with
  | false => simp only [Bool.false_eq_true, if_false, Nat.mod_eq_of_lt hlt, if_pos hlt]
  | true =>
    simp only [if_true, Nat.add_mod_left, Nat.mod_eq_of_lt hlt,
      Nat.not_lt.mpr (Nat.le_add_right _ pattern), if_false]

def patternOf (x : Dyadic) : Nat :=
  let m := x.mantissa.natAbs
  let cut := bitLength m - 64
  let lead := magnitude (ofScaled (m >>> cut) 0)
  ofScaled lead.mantissa.natAbs (lead.exponent + x.exponent + cut)

theorem estimate?_eq (x : Dyadic) : estimate? x = if patternOf x < infinity then
    some (if x.mantissa < 0 then -magnitude (patternOf x) else magnitude (patternOf x)) else none := by
  have hbits : ofDyadic x = withSign (x.mantissa < 0) (patternOf x) := rfl
  have hle : patternOf x ≤ infinity := ofScaled_le_infinity _ _
  rw [estimate?, hbits, toDyadic?_withSign _ hle]
  simp only [decide_eq_true_eq]

theorem estimate?_neg (x : Dyadic) : estimate? (-x) = (estimate? x).map (-·) := by
  have hpattern : patternOf (-x) = patternOf x := by
    simp only [patternOf, Dyadic.mantissa_neg, Dyadic.exponent_neg, Int.natAbs_neg]
  rw [estimate?_eq, estimate?_eq, hpattern, Dyadic.mantissa_neg]
  split
  · rw [Option.map_some]
    rcases Int.lt_trichotomy x.mantissa 0 with hneg | hzero | hpos
    · rw [if_neg (by omega), if_pos hneg, Dyadic.neg_neg]
    · rw [Dyadic.eq_zero_of_mantissa hzero]
      decide
    · rw [if_pos (by omega), if_neg (by omega)]
  · rfl

theorem roundedQuotient_neg (x y : Dyadic) : roundedQuotient (-x) y = -roundedQuotient x y := by
  simp only [roundedQuotient, Dyadic.mantissa_neg, Dyadic.exponent_neg, Int.natAbs_neg, Int.neg_mul, Int.sign_neg]

end Phasor.Binary64

namespace Phasor

open Dyadic

namespace Series

theorem negligible_neg (w : Nat) (term sum : Dyadic) : negligible w (-term) (-sum) = negligible w term sum := by
  simp only [negligible, Dyadic.neg_eq_zero, Ne, top_neg]

theorem sumFrom_neg {s : Series Dyadic} (hstep : ∀ n power, s.step n (-power) = -s.step n power)
    (hterm : ∀ n power, s.term n (-power) = -s.term n power) (w limit n : Nat) (power sum : Dyadic) :
    (s.sumFrom w limit n (-power) (-sum)).value = -(s.sumFrom w limit n power sum).value := by
  induction limit generalizing n power sum with
  | zero => rfl
  | succ limit ih =>
    rw [sumFrom, sumFrom]
    simp only [hstep, hterm, negligible_neg, addTo_neg]
    split
    · rfl
    · exact ih (n + 1) _ _

theorem sin_neg (w : Nat) (x : Dyadic) : (sin w (-x)).value = -(sin w x).value := by
  have hsquare : (-x).mulTo w (-x) = x.mulTo w x := by rw [mulTo_neg_left, mulTo_neg_right, Dyadic.neg_neg]
  rw [sin, sin, hsquare]
  apply sumFrom_neg
  · intro n power
    simp only [alternated_step, quotients_step, mulTo_neg_left, divTo_neg_left]
  · intro n power
    rfl

theorem cos_neg (w : Nat) (x : Dyadic) : cos w (-x) = cos w x := by
  have hsquare : (-x).mulTo w (-x) = x.mulTo w x := by rw [mulTo_neg_left, mulTo_neg_right, Dyadic.neg_neg]
  rw [cos, cos, hsquare]

end Series

namespace BigFloat

theorem estimateWithin?_neg (bound x : Dyadic) : estimateWithin? bound (-x) = (estimateWithin? bound x).map (-·) := by
  rw [estimateWithin?, estimateWithin?, Binary64.estimate?_neg]
  cases Binary64.estimate? x with
  | none => rfl
  | some v =>
    simp only [Option.map_some, Option.filter_some, abs_neg_eq]
    split <;> rfl

theorem quadrant_neg (v : Dyadic) : quadrant (-v) = -quadrant v :=
  Binary64.roundedQuotient_neg v halfPi64

theorem quadrantReduced_neg (w : Nat) (x : Dyadic) (q : Int) :
    quadrantReduced w (-x) (-q) = -quadrantReduced w x q := by
  have hq : Dyadic.ofInt (-q) = -Dyadic.ofInt q := scaled_neg q 0
  rw [quadrantReduced, quadrantReduced, hq, mulTo_neg_right, subTo_neg]

theorem quarterTurns_neg (q : Int) (s c : Dyadic) :
    quarterTurns (-q) (-s) c = (-(quarterTurns q s c).1, (quarterTurns q s c).2) := by
  have hcases : q % 4 = 0 ∧ (-q) % 4 = 0 ∨ q % 4 = 1 ∧ (-q) % 4 = 3 ∨ q % 4 = 2 ∧ (-q) % 4 = 2 ∨
      q % 4 = 3 ∧ (-q) % 4 = 1 := by omega
  unfold quarterTurns
  rcases hcases with ⟨h, h'⟩ | ⟨h, h'⟩ | ⟨h, h'⟩ | ⟨h, h'⟩ <;> rw [h, h'] <;> simp only [Dyadic.neg_neg]

theorem sinCosTo_neg (p : Nat) (x : Dyadic) :
    sinCosTo p (-x) = (-(sinCosTo p x).1, (sinCosTo p x).2) := by
  rw [sinCosTo, sinCosTo]
  by_cases hx : x = 0
  · rw [if_pos (Dyadic.neg_eq_zero.mpr hx), if_pos hx]
    rfl
  · rw [if_neg (mt Dyadic.neg_eq_zero.mp hx), if_neg hx, estimateWithin?_neg]
    cases estimateWithin? angleBound x with
    | none => rfl
    | some v =>
      simp only [Option.map_some, quadrant_neg, quadrantReduced_neg, Series.sin_neg, Series.cos_neg, quarterTurns_neg,
        roundTo_neg]
      rfl

theorem sinCos_neg (x : BigFloat) : sinCos (-x) = (-(sinCos x).1, (sinCos x).2) := by
  cases x with
  | nan => rfl
  | num x => exact sinCosTo_neg precision x

theorem sine_is_odd_and_cosine_even (x : BigFloat) :
    (sinCos (-x)).1 = -(sinCos x).1 ∧ (sinCos (-x)).2 = (sinCos x).2 := by
  rw [sinCos_neg]
  exact ⟨rfl, rfl⟩

theorem atanTo_neg (p : Nat) (x : Dyadic) : atanTo p (-x) = -atanTo p x := by
  rw [atanTo, atanTo]
  by_cases hx : x = 0
  · rw [if_pos (Dyadic.neg_eq_zero.mpr hx), if_pos hx]
    rfl
  · rw [if_neg (mt Dyadic.neg_eq_zero.mp hx), if_neg hx]
    simp only [abs_neg_eq, mantissa_neg, ← roundTo_neg]
    congr 1
    rcases Int.lt_or_gt_of_ne (mantissa_ne_zero hx) with hneg | hpos
    · rw [if_neg (by omega : ¬ -x.mantissa < 0), if_pos hneg, Dyadic.neg_neg]
    · rw [if_pos (by omega : -x.mantissa < 0), if_neg (by omega : ¬ x.mantissa < 0)]

theorem atan2To_neg (p : Nat) {y : Dyadic} (hy : y ≠ 0) (x : Dyadic) : atan2To p (-y) x = -atan2To p y x := by
  have hm := mantissa_ne_zero hy
  have hsum (a b : Dyadic) : (-a).addTo (p + guardDigits) b = -a.subTo (p + guardDigits) b := by
    rw [Dyadic.subTo, ← addTo_neg, Dyadic.neg_neg]
  have hdiff (a b : Dyadic) : (-a).subTo (p + guardDigits) b = -a.addTo (p + guardDigits) b := addTo_neg _ a b
  rw [atan2To, atan2To]
  split
  · simp only [Dyadic.neg_eq_zero, if_neg hy, mantissa_neg]
    rcases Int.lt_or_gt_of_ne hm with hneg | hpos
    · rw [if_neg (by omega), if_pos hneg, Dyadic.neg_neg]
    · rw [if_pos (by omega), if_neg (by omega)]
  · simp only [divTo_neg_left, atanTo_neg, mantissa_neg, hsum, hdiff, ← roundTo_neg]
    congr 1
    split
    · rfl
    · rcases Int.lt_or_gt_of_ne hm with hneg | hpos
      · rw [if_neg (by omega), if_pos hneg]
      · rw [if_pos (by omega), if_neg (by omega)]

theorem atan2To_zero (p : Nat) {x : Dyadic} (hx : 0 ≤ x.mantissa) : atan2To p 0 x = 0 := by
  rw [atan2To]
  split
  · rfl
  · rename_i hne
    have hpos : 0 < x.mantissa := lt_of_le_of_ne hx (mantissa_ne_zero hne).symm
    simp only [zero_divTo, if_pos hpos, atanTo, if_true, roundTo_zero]

end BigFloat

end Phasor
