import Mathlib.Data.List.TakeWhile
import Phasor.Proofs.DecimalExponent
import Phasor.Proofs.Numeral

namespace Phasor.BigFloat

open Decimal (Digits Signed Pointed Marked Spelled tenTo)

theorem ofDigitChars_replicate_zero (z init : Nat) :
    Nat.ofDigitChars 10 (List.replicate z '0') init = init * 10 ^ z := by
  induction z generalizing init with
  | zero => simp
  | succ z ih =>
    rw [List.replicate_succ, Nat.ofDigitChars_cons, ih, Nat.pow_succ]
    simp only [Nat.sub_self, Nat.add_zero]
    ring

theorem digits_replicate_zero (z : Nat) : Digits (List.replicate z '0') := by
  intro c hc
  rw [List.eq_of_mem_replicate hc]
  decide

theorem digits_toDigits (n : Nat) : Digits (Nat.toDigits 10 n) :=
  fun _ hc => Nat.isDigit_of_mem_toDigits (by decide) (by decide) hc

theorem exists_toDigits_eq {n : Nat} (hn : n ≠ 0) :
    ∃ z, Nat.toDigits 10 n = significant n ++ List.replicate z '0' := by
  have hzeros : ((Nat.toDigits 10 n).reverse.takeWhile (· == '0')).reverse =
      List.replicate ((Nat.toDigits 10 n).reverse.takeWhile (· == '0')).length '0' := by
    rw [List.eq_replicate_iff]
    refine ⟨List.length_reverse, ?_⟩
    intro c hc
    simpa using List.mem_takeWhile_imp (List.mem_reverse.mp hc)
  have hparts := congrArg List.reverse
    (List.takeWhile_append_dropWhile (p := (· == '0')) (l := (Nat.toDigits 10 n).reverse))
  rw [List.reverse_append, List.reverse_reverse, hzeros] at hparts
  refine ⟨((Nat.toDigits 10 n).reverse.takeWhile (· == '0')).length, ?_⟩
  unfold significant
  split
  · rename_i hnil
    -- all digits would be zero
    rw [hnil, List.nil_append] at hparts
    have hvalue := congrArg (Nat.ofDigitChars 10 · 0) hparts
    simp only [ofDigitChars_replicate_zero, Nat.ofDigitChars_ten_toDigits] at hvalue
    omega
  · exact hparts.symm

theorem exists_significant {n : Nat} (hmany : 10 ^ (digits - 1) ≤ n) (hfew : n < 10 ^ digits) :
    ∃ z, (significant n).length + z = digits ∧ significant n ≠ [] ∧ Digits (significant n) ∧
      Nat.ofDigitChars 10 (significant n) 0 * 10 ^ z = n := by
  have hn : n ≠ 0 := by
    have : 0 < 10 ^ (digits - 1) := by positivity
    omega
  obtain ⟨z, hz⟩ := exists_toDigits_eq hn
  refine ⟨z, ?_, ?_, ?_, ?_⟩
  · have hlength := congrArg List.length hz
    have hle := (Nat.length_toDigits_le_iff (b := 10) (n := n) (k := digits) (by decide) (by decide)).mpr hfew
    have hlt := mt (Nat.length_toDigits_le_iff (b := 10) (n := n) (k := digits - 1) (by decide) (by decide)).mp
      (Nat.not_lt.mpr hmany)
    simp only [List.length_append, List.length_replicate] at hlength
    unfold digits at *
    omega
  · unfold significant
    split
    · simp
    · assumption
  · intro c hc
    apply digits_toDigits n
    rw [hz]
    exact List.mem_append_left _ hc
  · have hvalue := congrArg (Nat.ofDigitChars 10 · 0) hz
    simp only [Nat.ofDigitChars_append, ofDigitChars_replicate_zero, Nat.ofDigitChars_ten_toDigits] at hvalue
    exact hvalue.symm

theorem marked_integerText (k : Int) : Marked k ('e' :: integerText k) := by
  unfold integerText
  split
  · have h := Marked.mark (c := 'e') (by decide) .minus Nat.toDigits_ne_nil (digits_toDigits k.natAbs)
    rwa [Nat.ofDigitChars_ten_toDigits, if_pos rfl, show -(k.natAbs : Int) = k by omega] at h
  · have h := Marked.mark (c := 'e') (by decide) .none Nat.toDigits_ne_nil (digits_toDigits k.natAbs)
    rwa [Nat.ofDigitChars_ten_toDigits, if_neg (by decide), show (k.natAbs : Int) = k by omega] at h

/-- A numeral whose first digit, before zeros, is to stand for a multiple of `10 ^ k`. -/
structure Lays (ds : List Char) (k : Int) (d : Decimal) : Prop where
  exponent : d.exponent = 0 ∨ d.exponent = k
  scale : d.scale = 0 ∨ d.scale = k + 1 - ds.length
  value : (d.coefficient : ℚ) * 10 ^ d.scale = Nat.ofDigitChars 10 ds 0 * 10 ^ (k + 1 - ds.length)

theorem Lays.of_scale {ds : List Char} {k : Int} {d : Decimal} (hexp : d.exponent = 0 ∨ d.exponent = k) {z : Nat}
    (hdigits : d.whole ++ d.fraction = List.replicate z '0' ++ ds) (hscale : d.scale = k + 1 - ds.length) :
    Lays ds k d := by
  refine ⟨hexp, .inr hscale, ?_⟩
  rw [Decimal.coefficient, hdigits, Nat.ofDigitChars_append, ofDigitChars_replicate_zero, Nat.zero_mul, hscale]

theorem Lays.of_zeros {ds : List Char} {k : Int} {d : Decimal} (hexp : d.exponent = 0 ∨ d.exponent = k) {z : Nat}
    (hdigits : d.whole ++ d.fraction = ds ++ List.replicate z '0') (hscale : d.scale = 0)
    (hz : (z : Int) = k + 1 - ds.length) : Lays ds k d := by
  refine ⟨hexp, .inl hscale, ?_⟩
  rw [Decimal.coefficient, hdigits, Nat.ofDigitChars_append, ofDigitChars_replicate_zero, hscale, ← hz, zpow_natCast]
  push_cast
  ring

theorem Lays.value_eq {n z : Nat} {k : Int} {d : Decimal} (h : Lays (significant n) k d)
    (hz : (significant n).length + z = digits) (hweight : Nat.ofDigitChars 10 (significant n) 0 * 10 ^ z = n) :
    d.value = (if d.negative then -1 else 1) * (n * 10 ^ (k - 24)) := by
  have hn : (n : ℚ) = Nat.ofDigitChars 10 (significant n) 0 * 10 ^ (z : Int) := by exact_mod_cast hweight.symm
  unfold digits at hz
  rw [Decimal.value, h.value, hn, mul_assoc _ ((10 : ℚ) ^ (z : Int)), ← zpow_add₀ (by norm_num)]
  congr 3
  omega

theorem exists_spelled_layout {negative : Bool} {sign ds : List Char} (hs : Signed negative sign) (hne : ds ≠ [])
    (hd : Digits ds) (k : Int) :
    ∃ d, d.negative = negative ∧ Spelled d (sign ++ layout ds k) ∧ Lays ds k d ∧
      (d.fraction = [] ∨ d.fraction.getLast? = ds.getLast?) := by
  have hlength : 0 < ds.length := List.length_pos_iff.mpr hne
  have hsplit (i : Nat) : ds.take i ++ ds.drop i = ds := List.take_append_drop i ds
  unfold layout
  split
  · split
    · simp only
      split
      · -- all digits before the point, and zeros up to it
        refine ⟨⟨negative, ds ++ List.replicate (k.toNat + 1 - ds.length) '0', [], 0⟩, rfl,
          ⟨⟨sign, [], [], hs, .none, .none, by simp⟩, by simp [hne], ?_⟩,
          Lays.of_zeros (.inl rfl) (List.append_nil _) rfl (by omega), .inl rfl⟩
        simpa using hd.append (digits_replicate_zero _)
      · -- a point among the digits
        refine ⟨⟨negative, ds.take (k.toNat + 1), ds.drop (k.toNat + 1), 0⟩, rfl,
          ⟨⟨sign, _, [], hs, .point _, .none, by simp⟩, by rwa [hsplit], by rwa [hsplit]⟩,
          Lays.of_scale (z := 0) (.inl rfl) (hsplit _) ?_, .inr ?_⟩
        · simp only [Decimal.scale, List.length_drop]
          omega
        · rw [List.getLast?_drop, if_neg (by assumption)]
    · -- zeros between the point and the digits
      refine ⟨⟨negative, ['0'], List.replicate (-k - 1).toNat '0' ++ ds, 0⟩, rfl,
        ⟨⟨sign, _, [], hs, .point _, .none, by simp⟩, by simp, ?_⟩,
        Lays.of_scale (z := (-k - 1).toNat + 1) (.inl rfl) rfl ?_, .inr (List.getLast?_append_of_ne_nil _ hne)⟩
      · exact (digits_replicate_zero 1).append ((digits_replicate_zero _).append hd)
      · simp only [Decimal.scale, List.length_append, List.length_replicate]
        omega
  · split
    · -- one digit before the point, and an exponent
      refine ⟨⟨negative, ds.take 1, ds.drop 1, k⟩, rfl,
        ⟨⟨sign, _, _, hs, .point _, marked_integerText k, by simp⟩, by rwa [hsplit], by rwa [hsplit]⟩,
        Lays.of_scale (z := 0) (.inr rfl) (hsplit 1) ?_, .inr ?_⟩
      · simp only [Decimal.scale, List.length_drop]
        omega
      · rw [List.getLast?_drop, if_neg (by omega)]
    · refine ⟨⟨negative, ds, [], k⟩, rfl,
        ⟨⟨sign, [], _, hs, .none, marked_integerText k, by simp⟩, by simp [hne], by simpa using hd⟩,
        Lays.of_scale (z := 0) (.inr rfl) (List.append_nil ds) ?_, .inl rfl⟩
      simp only [Decimal.scale, List.length_nil]
      omega

theorem ofText_of_spelled {d : Decimal} {cs : List Char} (h : Spelled d cs) :
    ofText (String.ofList cs) = ofDecimal d := by
  unfold ofText
  rw [String.toList_ofList, Decimal.trim_eq_self (fun _ hc => h.isBlank_eq_false hc), Decimal.scan?_of_spelled h]

theorem tenTo_natCast (k : Nat) : tenTo k = 10 ^ k := rfl

theorem near_round_tenTo (n s : Int) : Near (2 ^ (-95 : Int))
    (if 0 ≤ s then Dyadic.roundScaled precision (n * tenTo s) 0
      else Dyadic.roundQuotient precision n (tenTo (-s)) 0).toRat (n * 10 ^ s) := by
  split
  · rename_i hpos
    obtain ⟨k, rfl⟩ := Int.eq_ofNat_of_zero_le hpos
    have hround := Dyadic.near_roundScaled precision (n * tenTo k) 0
    have hten : ((n * tenTo k : Int) : ℚ) * 2 ^ (0 : Int) = n * 10 ^ (k : Int) := by
      rw [tenTo_natCast, zpow_zero, mul_one, zpow_natCast]
      push_cast
      rfl
    rw [hten] at hround
    exact hround.mono (zpow_le_zpow_right₀ (by norm_num) (by decide))
  · rename_i hneg
    obtain ⟨k, rfl⟩ : ∃ k : Nat, s = -k := ⟨(-s).toNat, by omega⟩
    have hpos : (tenTo (- -(k : Int)) : Int) ≠ 0 := by
      rw [Int.neg_neg, tenTo_natCast]
      positivity
    have hround := Dyadic.near_roundQuotient precision n hpos 0
    have hten : (n : ℚ) / ((tenTo (- -(k : Int)) : Int) : ℚ) * 2 ^ (0 : Int) = n * 10 ^ (-(k : Int)) := by
      rw [Int.neg_neg, tenTo_natCast, zpow_zero, mul_one, zpow_neg, zpow_natCast, div_eq_mul_inv]
      push_cast
      rfl
    rw [hten] at hround
    exact hround.mono (zpow_le_zpow_right₀ (by norm_num) (by decide))

theorem fitsInt64_of_natAbs_le {e : Int} (h : e.natAbs ≤ maxScale) : fitsInt64 e = true := by
  unfold maxScale at h
  unfold fitsInt64 int64Bound
  simp only [Bool.and_eq_true, decide_eq_true_eq]
  omega

theorem exists_ofDecimal_near {d : Decimal} (hexp : d.exponent.natAbs ≤ maxScale) (hscale : d.scale.natAbs ≤ maxScale) :
    ∃ y, ofDecimal d = .ok (num y) ∧ Near (2 ^ (-95 : Int)) y.toRat d.value := by
  have hbound : d.scale ≠ -int64Bound := by
    unfold int64Bound
    unfold maxScale at hscale
    omega
  unfold ofDecimal
  rw [if_neg (by simp [fitsInt64_of_natAbs_le hexp, fitsInt64_of_natAbs_le hscale]), if_neg hbound,
    if_neg (Nat.not_lt.mpr hscale)]
  refine ⟨_, rfl, ?_⟩
  rw [d.value_eq]
  exact near_round_tenTo _ _

theorem exists_ofText_layout {negative : Bool} {sign : List Char} (hs : Signed negative sign) {n : Nat}
    (hmany : 10 ^ (digits - 1) ≤ n) (hfew : n < 10 ^ digits) {k : Int} (hk : k.natAbs ≤ 99001) :
    ∃ y, ofText (String.ofList (sign ++ layout (significant n) k)) = .ok (num y) ∧
      Near (2 ^ (-95 : Int)) y.toRat ((if negative then -1 else 1) * (n * 10 ^ (k - 24))) := by
  obtain ⟨z, hz, hne, hd, hweight⟩ := exists_significant hmany hfew
  obtain ⟨d, hnegative, hspelled, hlays, -⟩ := exists_spelled_layout hs hne hd k
  have hlength : 0 < (significant n).length := List.length_pos_iff.mpr hne
  unfold digits at hz
  have hexp : d.exponent.natAbs ≤ maxScale := by
    unfold maxScale
    rcases hlays.exponent with h | h <;> omega
  have hscale : d.scale.natAbs ≤ maxScale := by
    unfold maxScale
    rcases hlays.scale with h | h <;> omega
  have hvalue := hlays.value_eq hz hweight
  rw [hnegative] at hvalue
  rw [ofText_of_spelled hspelled, ← hvalue]
  exact exists_ofDecimal_near hexp hscale

theorem signed_mantissa (x : Dyadic) :
    Signed (decide (x.mantissa < 0)) (if x.mantissa < 0 then ['-'] else []) := by
  by_cases h : x.mantissa < 0
  · rw [if_pos h, decide_eq_true h]
    exact .minus
  · rw [if_neg h, decide_eq_false h]
    exact .none

theorem toText_of_settleExponent {x : Dyadic} (hx : x ≠ 0) {n : Nat} {k : Int}
    (h : settleExponent x 4 (decimalEstimate x) 0 = (n, k)) :
    toText (num x) = String.ofList ((if x.mantissa < 0 then ['-'] else []) ++ layout (significant n) k) := by
  rw [toText, if_neg hx, h]
  simp only
  split <;> rfl

theorem toText_of_settled {x : Dyadic} (hx : x ≠ 0) (hlog : (Int.log 10 |x.toRat|).natAbs ≤ 99001) {n : Nat} {k : Int}
    (h : Settled |x.toRat| n k) :
    toText (num x) = String.ofList ((if x.mantissa < 0 then ['-'] else []) ++ layout (significant n) k) :=
  toText_of_settleExponent hx (h.settle_estimate hx hlog)

theorem mantissa_neg_iff (x : Dyadic) : x.mantissa < 0 ↔ x.toRat < 0 := by
  have hpos : (0 : ℚ) < 2 ^ x.exponent := by positivity
  rw [Dyadic.toRat_eq_mantissa_mul]
  constructor
  · intro h
    exact mul_neg_of_neg_of_pos (Int.cast_lt_zero.mpr h) hpos
  · intro h
    exact Int.cast_lt_zero.mp (neg_of_mul_neg_left h hpos.le)

def signum (x : Dyadic) : ℚ := if decide (x.mantissa < 0) then -1 else 1

theorem signum_mul_self (x : Dyadic) : signum x * signum x = 1 := by
  unfold signum
  split <;> norm_num

theorem toRat_mul_signum (x : Dyadic) : x.toRat * signum x = |x.toRat| := by
  unfold signum
  simp only [decide_eq_true_eq, mantissa_neg_iff]
  split
  · rename_i h
    rw [abs_of_neg h, mul_neg_one]
  · rename_i h
    rw [abs_of_nonneg (not_lt.mp h), mul_one]

theorem sign_eq_of_pos {x y : Dyadic} (h : 0 < y.toRat * signum x) :
    (y.mantissa < 0 ↔ x.mantissa < 0) ∧ |y.toRat| = y.toRat * signum x := by
  rw [mantissa_neg_iff y]
  unfold signum at *
  by_cases hx : x.mantissa < 0
  · simp only [hx, decide_true, if_true, mul_neg_one] at h ⊢
    have hy : y.toRat < 0 := by linarith
    exact ⟨iff_of_true hy trivial, abs_of_neg hy⟩
  · simp only [hx, decide_false, Bool.false_eq_true, if_false, mul_one] at h ⊢
    exact ⟨iff_of_false (not_lt.mpr h.le) not_false, abs_of_pos h⟩

/-- Printing and reading agree. A number whose decimal exponent is at most 99000 in size, of any
precision, is printed as a text that is read, as a number with the same text and as near to it as 25
digits can say. -/
theorem printed_text_is_read_back (x : Dyadic) (hx : (Int.log 10 |x.toRat|).natAbs ≤ 99000) :
    ∃ y, ofText (toText (num x)) = .ok (num y) ∧ toText (num y) = toText (num x) ∧
      Near (10 ^ (-24 : Int)) y.toRat x.toRat := by
  by_cases hzero : x = 0
  · subst hzero
    exact ⟨0, rfl, rfl, Near.refl (by positivity) _⟩
  · obtain ⟨n, k, hsettled⟩ := exists_settled (abs_toRat_pos hzero)
    have hmany := hsettled.many (abs_nonneg _)
    obtain ⟨hlow, hhigh⟩ := hsettled.log_bounds (abs_toRat_pos hzero)
    have htext := toText_of_settled hzero (by omega) hsettled
    obtain ⟨y, hread, hnear⟩ := exists_ofText_layout (signed_mantissa x) hmany hsettled.few (k := k) (by omega)
    have hmirror : Near (2 ^ (-95 : Int)) (y.toRat * signum x) (n * 10 ^ (k - 24)) := by
      have h := hnear.mul_right (signum x)
      rwa [mul_right_comm, show (if decide (x.mantissa < 0) then (-1 : ℚ) else 1) = signum x from rfl,
        signum_mul_self, one_mul] at h
    obtain ⟨hpos, hsettled'⟩ := hsettled.of_near (abs_nonneg _) hmirror
    obtain ⟨hsign, habs⟩ := sign_eq_of_pos hpos
    rw [← habs] at hpos hsettled'
    have hy : y ≠ 0 := by
      rintro rfl
      exact absurd hpos (by simp)
    obtain ⟨hlow', hhigh'⟩ := hsettled'.log_bounds hpos
    refine ⟨y, ?_, ?_, ?_⟩
    · rw [htext]
      exact hread
    · rw [htext, toText_of_settled hy (by omega) hsettled']
      simp only [hsign]
    · have hclose := (hmirror.trans (by positivity) (hsettled.near (abs_nonneg _))).mono
        (show _ ≤ (10 : ℚ) ^ (-24 : Int) by norm_num)
      rw [← toRat_mul_signum x] at hclose
      have h := hclose.mul_right (signum x)
      rwa [mul_assoc, mul_assoc, signum_mul_self, mul_one, mul_one] at h

theorem printed_text_is_read_back_carry :
    (Int.log 10 |(Dyadic.scaled (1 - 2 ^ 90) (-90)).toRat|).natAbs ≤ 99000 ∧
    ∃ y, ofText (toText (num (Dyadic.scaled (1 - 2 ^ 90) (-90)))) = .ok (num y) ∧ toText (num y) = "-1" ∧
      Near (10 ^ (-24 : Int)) y.toRat (Dyadic.scaled (1 - 2 ^ 90) (-90)).toRat := by
  have htext : toText (num (Dyadic.scaled (1 - 2 ^ 90) (-90))) = "-1" := by decide +kernel
  have hsize : |(Dyadic.scaled (1 - 2 ^ 90) (-90)).toRat| = 1 - 2 ^ (-90 : Int) := by
    rw [Dyadic.toRat_scaled]
    norm_num [abs_of_neg]
  have hlog : (Int.log 10 |(Dyadic.scaled (1 - 2 ^ 90) (-90)).toRat|).natAbs ≤ 99000 := by
    rw [hsize]
    have hlow : -1 ≤ Int.log 10 ((1 : ℚ) - 2 ^ (-90 : Int)) :=
      (Int.zpow_le_iff_le_log (by decide) (by norm_num)).mp (by norm_num)
    have hhigh : Int.log 10 ((1 : ℚ) - 2 ^ (-90 : Int)) < 0 :=
      (Int.lt_zpow_iff_log_lt (by decide) (by norm_num)).mp (by norm_num)
    omega
  obtain ⟨y, hread, hsame, hnear⟩ := printed_text_is_read_back _ hlog
  exact ⟨hlog, y, hread, hsame.trans htext, hnear⟩

end Phasor.BigFloat
