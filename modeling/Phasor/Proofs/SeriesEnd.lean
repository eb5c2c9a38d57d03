import Phasor.Proofs.SeriesBounds

/-!
No series is cut off by the limit on the number of its terms. In every loop there is an index from
which all terms are negligible: the terms fall by a fixed factor in spite of their roundings, while
the sum keeps the size of the first one. So every sum is that of a loop without a limit.
-/

namespace Phasor.Series

open Dyadic (fits_one toReal_neg divTo_neg_left)

inductive Sums (s : Series Dyadic) (w : Nat) : (n : Nat) → (power sum total omitted : Dyadic) → Prop
  | stop {n power sum} : negligible w (s.term n (s.step n power)) sum = true →
      Sums s w n power sum sum (s.term n (s.step n power))
  | add {n power sum total omitted} : negligible w (s.term n (s.step n power)) sum = false →
      Sums s w (n + 1) (s.step n power) (sum.addTo w (s.term n (s.step n power))) total omitted →
      Sums s w n power sum total omitted

theorem Sums.negligible {s : Series Dyadic} {w n : Nat} {power sum total omitted : Dyadic}
    (h : s.Sums w n power sum total omitted) : negligible w omitted total = true := by
  induction h with
  | stop hsmall => exact hsmall
  | add _ _ ih => exact ih

section Converged

variable {s : Series Dyadic} {w limit n : Nat} {power sum : Dyadic}

theorem sums_of_converged (h : (s.sumFrom w limit n power sum).converged = true) :
    ∃ omitted, s.Sums w n power sum (s.sumFrom w limit n power sum).value omitted := by
  induction limit generalizing n power sum with
  | zero => cases h
  | succ limit ih =>
    by_cases hsmall : negligible w (s.term n (s.step n power)) sum = true
    · rw [sumFrom, if_pos hsmall]
      exact ⟨_, .stop hsmall⟩
    · rw [sumFrom, if_neg hsmall] at h ⊢
      obtain ⟨omitted, hrest⟩ := ih h
      exact ⟨omitted, .add (Bool.eq_false_of_not_eq_true hsmall) hrest⟩

theorem sumFrom_converged {Inv : Nat → Dyadic → Dyadic → Prop} (bound : Nat)
    (hstep : ∀ n power sum, Inv n power sum → negligible w (s.term n (s.step n power)) sum = false →
      Inv (n + 1) (s.step n power) (sum.addTo w (s.term n (s.step n power))))
    (hend : ∀ n power sum, Inv n power sum → bound ≤ n → negligible w (s.term n (s.step n power)) sum = true)
    (hn : n ≤ bound) (hlimit : bound < n + limit) (h : Inv n power sum) :
    (s.sumFrom w limit n power sum).converged = true := by
  induction limit generalizing n power sum with
  | zero => omega
  | succ limit ih =>
    by_cases hsmall : negligible w (s.term n (s.step n power)) sum = true
    · rw [sumFrom, if_pos hsmall]
    · have hlt : n < bound := lt_of_not_ge (mt (hend n power sum h) hsmall)
      rw [sumFrom, if_neg hsmall]
      exact ih hlt (by omega) (hstep n power sum h (Bool.eq_false_of_not_eq_true hsmall))

end Converged

theorem negligible_of_decayed {w n : Nat} (hw : 8 ≤ w) (hn : w < n) {first term sum : Dyadic}
    (hterm : |term.toReal| * 10 ^ n ≤ |first.toReal|) (hsum : |first.toReal| ≤ 4 * |sum.toReal|) :
    negligible w term sum = true := by
  have hpow : (2 : ℝ) ^ (w + 5) ≤ 10 ^ n :=
    calc (2 : ℝ) ^ (w + 5) = 2 ^ w * 2 ^ 5 := pow_add 2 w 5
      _ ≤ 2 ^ w * 5 ^ w := by
          gcongr
          calc (2 : ℝ) ^ 5 ≤ 5 ^ 8 := by norm_num
            _ ≤ 5 ^ w := pow_le_pow_right₀ (by norm_num) hw
      _ = 10 ^ w := by
          rw [← mul_pow]
          norm_num
      _ ≤ 10 ^ n := pow_le_pow_right₀ (by norm_num) hn.le
  apply negligible_of_abs_le
  have hscaled := mul_le_mul_of_nonneg_left hpow (abs_nonneg term.toReal)
  rw [show w + 5 = w + 3 + 2 by omega, pow_add] at hscaled
  linarith

section Alternating

variable {s : Series Dyadic} {w : Nat} (hw : 8 ≤ w) (h : s.Alternating w) {start first : Dyadic} (hfirst : first.Fits w)
  (hsecond : |(s.term 1 (s.step 1 start)).toReal| ≤ 3 / 5 * |first.toReal|)

structure Fading (s : Series Dyadic) (w : Nat) (start first : Dyadic) (n : Nat) (power sum : Dyadic) : Prop where
  between : Between s w start first n power sum
  decayed : ∀ i, n = i + 2 → |(s.term (i + 1) power).toReal| * 10 ^ i ≤ |first.toReal|

include h hsecond

theorem Fading.abs_term_le {power sum : Dyadic} {i : Nat} (hf : Fading s w start first (i + 1) power sum) :
    |(s.term (i + 1) (s.step (i + 1) power)).toReal| * 10 ^ i ≤ |first.toReal| := by
  -- the first term has its own bound, and only the later ones follow from those before
  cases i with
  | zero =>
    rcases hf.between with ⟨-, rfl, -⟩ | ⟨prev, he⟩
    · have := abs_nonneg first.toReal
      rw [pow_zero, mul_one]
      linarith
    · exact absurd he.one_lt (by omega)
  | succ i =>
    have hlast := hf.decayed i rfl
    have hnext := mul_le_mul_of_nonneg_right (h.tenth (i + 1) power (by omega)) (by positivity : (0 : ℝ) ≤ 10 ^ i)
    rw [pow_succ]
    linarith

include hw hfirst

theorem Fading.step {n : Nat} {power sum : Dyadic} (hf : Fading s w start first n power sum)
    (hlarge : negligible w (s.term n (s.step n power)) sum = false) :
    Fading s w start first (n + 1) (s.step n power) (sum.addTo w (s.term n (s.step n power))) := by
  refine ⟨hf.between.step hw h hfirst hlarge, ?_⟩
  intro i hi
  obtain rfl : n = i + 1 := by omega
  exact hf.abs_term_le h hsecond

theorem Between.abs_first_le {n : Nat} {power sum : Dyadic} (hb : Between s w start first n power sum) :
    |first.toReal| ≤ 4 * |sum.toReal| := by
  -- The second sum keeps at least a quarter of the first one, and the others lie between the two.
  have hround := (roundedOnce_addTo (by omega) hfirst (h.fits 1 start)).abs_sub_le hw
  have hdist := Set.abs_sub_left_of_mem_uIcc hb.mem
  generalize (s.term 1 (s.step 1 start)).toReal = t at *
  generalize (first.addTo w (s.term 1 (s.step 1 start))).toReal = b at *
  have hsize := abs_add_le first.toReal t
  have htri := abs_sub_le b (first.toReal + t) first.toReal
  rw [add_sub_cancel_left] at htri
  have hback := abs_sub_abs_le_abs_sub first.toReal sum.toReal
  rw [abs_sub_comm] at hback
  linarith [abs_nonneg first.toReal]

theorem sumFrom_converged_of_alternating {limit : Nat} (hlimit : w + 2 ≤ limit) :
    (s.sumFrom w limit 1 start first).converged = true := by
  apply sumFrom_converged (w + 2) (fun _ _ _ hf hlarge => Fading.step hw h hfirst hsecond hf hlarge) ?_
    (by omega) (by omega) ⟨.inl ⟨rfl, rfl, rfl⟩, fun i hi => by omega⟩
  intro n power sum hf hn
  obtain ⟨i, rfl⟩ : ∃ i, n = i + 1 := ⟨n - 1, by omega⟩
  exact negligible_of_decayed hw (by omega) (hf.abs_term_le h hsecond)
    (hf.between.abs_first_le hw h hfirst hsecond)

end Alternating

structure Settling (w : Nat) (first : Dyadic) (n : Nat) (power sum : Dyadic) : Prop where
  growing : Growing w first n power sum
  decayed : ∀ i, n = i + 1 → |power.toReal| * 10 ^ i ≤ |first.toReal|

theorem settling_first {w : Nat} {first : Dyadic} (h : first.Fits w) : Settling w first 1 first first where
  growing := growing_first h
  decayed i hi := by
    obtain rfl : i = 0 := by omega
    rw [pow_zero, mul_one]

theorem Settling.exists_eq_succ {w n : Nat} {first power sum : Dyadic} (h : Settling w first n power sum) :
    ∃ i, n = i + 1 :=
  Nat.exists_eq_add_of_le' h.growing.one_le

section Growing

variable {w : Nat} (hw : 8 ≤ w) {y : Dyadic} (hlow : 0 ≤ y.toReal) (hhigh : y.toReal ≤ 1 / 11) {c : Nat → Nat}
  (hc : ∀ n, 1 ≤ n → 0 < c n) {first : Dyadic}

include hw hlow hhigh hc

theorem Settling.abs_next_le {i : Nat} {power sum : Dyadic} (hs : Settling w first (i + 1) power sum) :
    |((quotients w y c).step (i + 1) power).toReal| * 10 ^ (i + 1) ≤ |first.toReal| := by
  have hlast := hs.decayed i rfl
  have htenth := ten_mul_abs_mulTo_divTo_le hw power (hc (i + 1) (by omega)) (by rwa [abs_of_nonneg hlow])
  have hnext := mul_le_mul_of_nonneg_right htenth (by positivity : (0 : ℝ) ≤ 10 ^ i)
  rw [quotients_step, pow_succ]
  linarith

theorem Settling.step (hfirst : first.Fits w) {n : Nat} {power sum : Dyadic} (hs : Settling w first n power sum) :
    Settling w first (n + 1) ((quotients w y c).step n power) (sum.addTo w ((quotients w y c).step n power)) := by
  obtain ⟨i, rfl⟩ := hs.exists_eq_succ
  refine ⟨hs.growing.step hw hlow hc hfirst, ?_⟩
  intro j hj
  obtain rfl : j = i + 1 := by omega
  exact hs.abs_next_le hw hlow hhigh hc

theorem sumFrom_converged_of_growing (hfirst : first.Fits w) {limit : Nat} (hlimit : w + 2 ≤ limit) :
    ((quotients w y c).sumFrom w limit 1 first first).converged = true := by
  apply sumFrom_converged (s := quotients w y c) (w + 2)
    (fun _ _ _ hs _ => Settling.step hw hlow hhigh hc hfirst hs) ?_ (by omega) (by omega) (settling_first hfirst)
  intro n power sum hs hn
  obtain ⟨i, rfl⟩ := hs.exists_eq_succ
  have hmem := Set.abs_sub_left_of_mem_uIcc hs.growing.mem
  rw [sub_zero, sub_zero] at hmem
  exact negligible_of_decayed hw (by omega) (hs.abs_next_le hw hlow hhigh hc) (by linarith [abs_nonneg sum.toReal])

end Growing

theorem sumFrom_converged_of_halving {s : Series Dyadic} {w bound : Nat} {c : ℝ} {t : Nat → ℝ} {P : Nat → Dyadic → Prop}
    (hw : 8 * bound + 8 ≤ 2 ^ w) (ht : Halving w bound t)
    (hterm : ∀ n power, 1 ≤ n → n ≤ bound → P n power →
      P (n + 1) (s.step n power) ∧ (s.term n (s.step n power)).Fits w ∧
        Roundings w (2 * n + 1) (s.term n (s.step n power)).toReal (c * t n))
    {limit : Nat} (hlimit : bound ≤ limit) {power sum : Dyadic} (h : Summed w bound c t P 1 power sum) :
    (s.sumFrom w limit 1 power sum).converged = true := by
  apply sumFrom_converged bound (fun _ _ _ => summed_step hw ht hterm) ?_ h.le_bound (by omega) h
  intro n power sum hsummed hn
  by_contra hlarge
  exact absurd (lt_bound_of_not_negligible hw ht hterm hsummed (Bool.eq_false_of_not_eq_true hlarge)) (not_lt.mpr hn)

section Functions

variable {w : Nat} (hw : 8 ≤ w) (hlimit : w + 2 ≤ termLimit) {x : Dyadic}

include hw hlimit

theorem sumFrom_square_converged {x2 : Dyadic} (hlow : 0 ≤ x2.toReal) (hhigh : x2.toReal ≤ 1) {c : Nat → Nat}
    (hc : GrowingDivisors c) (hx : x.Fits w) :
    ((quotients w x2 c).alternated.sumFrom w termLimit 1 x x).converged = true := by
  apply sumFrom_converged_of_alternating hw (alternating_square hw hlow hhigh hc) hx ?_ hlimit
  have hle := abs_mulTo_square_divTo_le hw hlow hhigh x (hc.two_le 0)
  rw [alternated_term, quotients_term, alternated_step, quotients_step, toReal_neg, abs_neg]
  linarith [abs_nonneg x.toReal]

theorem sin_converged (hx : x.Fits w) (hone : |x.toReal| ≤ 1) : (sin w x).converged = true := by
  obtain ⟨hlow, hhigh⟩ := square_mem hw hone
  exact sumFrom_square_converged hw hlimit hlow hhigh growingDivisors_oddFactors hx

theorem cos_converged (hone : |x.toReal| ≤ 1) : (cos w x).converged = true := by
  obtain ⟨hlow, hhigh⟩ := square_mem hw hone
  exact sumFrom_square_converged hw hlimit hlow hhigh growingDivisors_evenFactors (fits_one (by omega))

theorem atan_converged (hx : x.Fits w) (hsmall : |x.toReal| ≤ 3 / 10) : (atan w x).converged = true := by
  obtain ⟨hlow, -⟩ := square_mem hw (x := x) (by linarith)
  have hhigh := square_le hw hsmall
  apply sumFrom_converged_of_alternating hw (alternating_atan hw hlow hhigh) hx ?_ hlimit
  have hle := ten_mul_abs_mulTo_divTo_le hw x (x := x.mulTo w x) (c := 2 * 1 + 1) (by omega)
    (by rwa [abs_of_nonneg hlow])
  rw [alternated_term, oddQuotients_term, alternated_step, oddQuotients_step, divTo_neg_left, toReal_neg, abs_neg]
  linarith [abs_nonneg x.toReal]

theorem exp_converged (hsmall : |x.toReal| ≤ 1 / 1024) : (exp w x).converged = true := by
  have hone : (1 : Dyadic).Fits w := fits_one (by omega)
  -- the terms alternate exactly where the argument is negative
  rcases le_total 0 x.toReal with hpos | hneg
  · rw [abs_of_nonneg hpos] at hsmall
    exact sumFrom_converged_of_growing hw hpos (by linarith) (fun _ hn => hn) hone hlimit
  · apply sumFrom_converged_of_alternating hw (alternating_exp hw hneg hsmall) hone ?_ hlimit
    have hle := ten_mul_abs_mulTo_divTo_le hw 1 (x := x) (c := 1) (by omega) (by linarith)
    rw [quotients_term, quotients_step, id]
    linarith [abs_nonneg (1 : Dyadic).toReal]

theorem sinh_converged (hx : x.Fits w) (hsmall : |x.toReal| ≤ 3 / 10) : (sinh w x).converged = true := by
  obtain ⟨hlow, -⟩ := square_mem hw (x := x) (by linarith)
  exact sumFrom_converged_of_growing hw hlow (square_le hw hsmall) (fun _ hn => growingDivisors_oddFactors.pos hn) hx
    hlimit

end Functions

theorem logTwo_converged : (logTwo 256).converged = true :=
  sumFrom_converged_of_halving (by norm_num) halving_logTwo (fun _ _ hn _ _ => ⟨trivial, logTwo_term hn⟩) (by decide)
    summed_logTwo

theorem artanh_converged {z : Dyadic} (hz : z.Fits 128) (hsmall : z.toReal ^ 2 ≤ 1 / 8) :
    (artanh 128 z).converged = true :=
  sumFrom_converged_of_halving (by norm_num) (halving_artanh hsmall) artanh_step (by decide) (summed_artanh hz)

end Phasor.Series
