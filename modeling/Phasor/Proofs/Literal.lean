import Phasor.Proofs.Nearest
import Phasor.Proofs.Printing

namespace Phasor.Decimal

theorem exists_signed (cs : List Char) : ∃ sign, Signed (splitSign cs).1 sign ∧ cs = sign ++ (splitSign cs).2 := by
  unfold splitSign
  split
  · exact ⟨['-'], .minus, rfl⟩
  · exact ⟨['+'], .plus, rfl⟩
  · exact ⟨[], .none, rfl⟩

theorem eq_false_of_dropWhile {p : Char → Bool} {l r : List Char} {c : Char} (h : l.dropWhile p = c :: r) :
    p c = false := by
  have hhead := List.head?_dropWhile_not p l
  rw [h] at hhead
  exact hhead

theorem exists_pointed (cs : List Char) :
    ∃ point, Pointed ((cs.dropWhile (· ≠ '.')).drop 1) point ∧ cs = cs.takeWhile (· ≠ '.') ++ point := by
  refine ⟨cs.dropWhile (· ≠ '.'), ?_, (List.takeWhile_append_dropWhile).symm⟩
  rcases h : cs.dropWhile (· ≠ '.') with _ | ⟨c, rest⟩
  · exact .none
  · obtain rfl : c = '.' := by simpa using eq_false_of_dropWhile h
    exact .point rest

theorem marked_of_integer? {c : Char} {cs : List Char} {n : Int} (hc : isMark c = true) (h : integer? cs = some n) :
    Marked n (c :: cs) := by
  unfold integer? at h
  obtain ⟨sign, hs, hcs⟩ := exists_signed cs
  generalize splitSign cs = parts at *
  obtain ⟨negative, ds⟩ := parts
  simp only [Option.ite_none_right_eq_some, Option.some.injEq] at h
  obtain ⟨⟨hne, hall⟩, rfl⟩ := h
  rw [hcs]
  exact .mark hc hs hne (List.all_eq_true.mp hall)

theorem spelled_of_scan? {cs : List Char} {d : Decimal} (h : scan? cs = some d) : Spelled d cs := by
  unfold scan? at h
  obtain ⟨sign, hs, hcs⟩ := exists_signed cs
  generalize splitSign cs = parts at *
  obtain ⟨negative, body⟩ := parts
  simp only [Option.bind_eq_bind] at h
  have hbody := List.takeWhile_append_dropWhile (p := fun c => !isMark c) (l := body)
  obtain ⟨point, hp, hmantissa⟩ := exists_pointed (body.takeWhile (fun c => !isMark c))
  generalize (body.takeWhile (fun c => !isMark c)).takeWhile (· ≠ '.') = whole at *
  generalize ((body.takeWhile (fun c => !isMark c)).dropWhile (· ≠ '.')).drop 1 = fraction at *
  obtain ⟨exponent, hmark, hd⟩ : ∃ exponent, Marked exponent (body.dropWhile (fun c => !isMark c)) ∧
      (if whole ++ fraction ≠ [] ∧ (whole ++ fraction).all Char.isDigit then
        some (Decimal.mk negative whole fraction exponent) else none) = some d := by
    split at h
    · rename_i hm
      rw [hm]
      exact ⟨0, .none, h⟩
    · rename_i hm
      obtain ⟨exponent, hexp, hd⟩ := Option.bind_eq_some_iff.mp h
      rw [hm]
      exact ⟨exponent, marked_of_integer? (by simpa using eq_false_of_dropWhile hm) hexp, hd⟩
  simp only [Option.ite_none_right_eq_some, Option.some.injEq] at hd
  obtain ⟨⟨hne, hall⟩, rfl⟩ := hd
  refine ⟨⟨sign, point, _, hs, hp, hmark, ?_⟩, hne, List.all_eq_true.mp hall⟩
  rw [← hmantissa, hbody, hcs]

def Blanks (cs : List Char) : Prop := ∀ c ∈ cs, Text.isBlank c = true

def WrittenIn (d : Decimal) (text : String) : Prop :=
  ∃ before cs after, text.toList = before ++ cs ++ after ∧ Blanks before ∧ Blanks after ∧ Spelled d cs

theorem trim_append {before cs after : List Char} (hb : Blanks before) (ha : Blanks after)
    (hcs : ∀ c ∈ cs, Text.isBlank c = false) (hne : cs ≠ []) : Text.trim (before ++ cs ++ after) = cs := by
  have hhead {l r : List Char} (hl : ∀ c ∈ l, Text.isBlank c = false) (hl' : l ≠ []) :
      (l ++ r).dropWhile Text.isBlank = l ++ r := by
    cases l with
    | nil => exact absurd rfl hl'
    | cons c l => simp [hl c List.mem_cons_self]
  unfold Text.trim
  rw [List.append_assoc, List.dropWhile_append_of_pos hb, hhead hcs hne, List.reverse_append,
    List.dropWhile_append_of_pos (fun c hc => ha c (List.mem_reverse.mp hc)), ← List.append_nil cs.reverse,
    hhead (fun c hc => hcs c (List.mem_reverse.mp hc)) (by simpa using hne), List.append_nil, List.reverse_reverse]

theorem exists_blanks (cs : List Char) :
    ∃ before after, cs = before ++ Text.trim cs ++ after ∧ Blanks before ∧ Blanks after := by
  refine ⟨cs.takeWhile Text.isBlank, ((cs.dropWhile Text.isBlank).reverse.takeWhile Text.isBlank).reverse, ?_, ?_, ?_⟩
  · rw [Text.trim, List.append_assoc, ← List.reverse_append, List.takeWhile_append_dropWhile, List.reverse_reverse,
      List.takeWhile_append_dropWhile]
  · intro c hc
    exact List.mem_takeWhile_imp hc
  · intro c hc
    exact List.mem_takeWhile_imp (List.mem_reverse.mp hc)

theorem Spelled.ne_nil {d : Decimal} {cs : List Char} (h : Spelled d cs) : cs ≠ [] := by
  rintro rfl
  have hscan := scan?_of_spelled h
  exact absurd hscan (by simp [scan?, splitSign])

theorem scan?_trim_eq_some_iff {text : String} {d : Decimal} :
    scan? (Text.trim text.toList) = some d ↔ d.WrittenIn text := by
  constructor
  · intro h
    obtain ⟨before, after, htext, hb, ha⟩ := exists_blanks text.toList
    exact ⟨before, _, after, htext, hb, ha, spelled_of_scan? h⟩
  · rintro ⟨before, cs, after, htext, hb, ha, hs⟩
    rw [htext, trim_append hb ha (fun _ hc => hs.isBlank_eq_false hc) hs.ne_nil]
    exact scan?_of_spelled hs

theorem value_eq_zero_of_coefficient {d : Decimal} (h : d.coefficient = 0) : d.value = 0 := by
  simp [value, h]

end Phasor.Decimal

namespace Phasor.BigFloat

open Dyadic
open Decimal (tenTo)

theorem nearest_tenTo (n s : Int) : Nearest precision ((n * 10 ^ s : ℚ) : ℝ)
    (if 0 ≤ s then roundScaled precision (n * tenTo s) 0 else roundQuotient precision n (tenTo (-s)) 0) := by
  split
  · rename_i hpos
    obtain ⟨k, rfl⟩ := Int.eq_ofNat_of_zero_le hpos
    have hround := nearest_roundScaled (p := precision) (by decide) (n * tenTo k) 0
    have hvalue : ((n * 10 ^ (k : Int) : ℚ) : ℝ) = ((n * tenTo k : Int) : ℝ) * 2 ^ (0 : Int) := by
      rw [tenTo_natCast]
      push_cast
      simp
    rwa [hvalue]
  · rename_i hneg
    obtain ⟨k, rfl⟩ : ∃ k : Nat, s = -k := ⟨(-s).toNat, by omega⟩
    have hden : (tenTo (- -(k : Int)) : Int) ≠ 0 := by
      rw [Int.neg_neg, tenTo_natCast]
      positivity
    have hround := nearest_roundQuotient (p := precision) (by decide) n hden 0
    have hvalue : ((n * 10 ^ (-(k : Int)) : ℚ) : ℝ) = n / ((tenTo (- -(k : Int)) : Int) : ℝ) * 2 ^ (0 : Int) := by
      rw [Int.neg_neg, tenTo_natCast]
      push_cast
      simp [div_eq_mul_inv]
    rwa [hvalue]

theorem fitsInt64_iff {n : Int} : fitsInt64 n = true ↔ -2 ^ 63 ≤ n ∧ n < 2 ^ 63 := by
  unfold fitsInt64 int64Bound
  simp only [Bool.and_eq_true, decide_eq_true_eq]
  omega

structure InRange (d : Decimal) : Prop where
  exponent : -2 ^ 63 ≤ d.exponent ∧ d.exponent < 2 ^ 63
  scale : -100000 ≤ d.scale ∧ d.scale ≤ 100000

theorem InRange.natAbs_scale_le {d : Decimal} (h : InRange d) : d.scale.natAbs ≤ maxScale := by
  obtain ⟨hlow, hhigh⟩ := h.scale
  unfold maxScale
  omega

theorem InRange.exists_ofDecimal {d : Decimal} (h : InRange d) : ∃ v, ofDecimal d = .ok v ∧ v.IsNearest d.value := by
  have hscale := h.natAbs_scale_le
  have hmin : d.scale ≠ -int64Bound := by
    unfold int64Bound
    unfold maxScale at hscale
    omega
  have hfits : ¬ (!fitsInt64 d.exponent || !fitsInt64 d.scale) = true := by
    rw [fitsInt64_iff.mpr h.exponent, fitsInt64_of_natAbs_le hscale]
    decide
  unfold ofDecimal
  rw [if_neg hfits, if_neg hmin, if_neg (Nat.not_lt.mpr hscale)]
  refine ⟨_, rfl, _, rfl, ?_⟩
  rw [d.value_eq]
  exact nearest_tenTo _ _

theorem ofDecimal_eq_error {d : Decimal} {e : LiteralError} (h : ofDecimal d = .error e) :
    ¬ InRange d ∧ (e = .malformed ∨ e = .exponentOverflow ∧ d.scale = -2 ^ 63) := by
  constructor
  · intro hr
    obtain ⟨v, hv, -⟩ := hr.exists_ofDecimal
    rw [hv] at h
    cases h
  · unfold ofDecimal at h
    split at h
    · exact .inl (Except.error.inj h).symm
    · split at h
      · rename_i hmin
        exact .inr ⟨(Except.error.inj h).symm, hmin⟩
      · split at h
        · exact .inl (Except.error.inj h).symm
        · cases h

theorem ofDecimal_eq_ok_iff {d : Decimal} {v : BigFloat} :
    ofDecimal d = .ok v ↔ InRange d ∧ v.IsNearest d.value := by
  constructor
  · intro h
    have hr : InRange d := by
      unfold ofDecimal at h
      split at h
      · cases h
      · rename_i hfits
        split at h
        · cases h
        · split at h
          · cases h
          · rename_i hscale
            unfold maxScale at hscale
            refine ⟨fitsInt64_iff.mp (by simp_all), by omega, by omega⟩
    obtain ⟨w, hw, hnearest⟩ := hr.exists_ofDecimal
    obtain rfl := Except.ok.inj (hw.symm.trans h)
    exact ⟨hr, hnearest⟩
  · rintro ⟨hr, hnearest⟩
    obtain ⟨w, hw, x, rfl, hx⟩ := hr.exists_ofDecimal
    rw [hw, hnearest.eq_num hx]

theorem ofText_of_writtenIn {d : Decimal} {text : String} (h : d.WrittenIn text) : ofText text = ofDecimal d := by
  rw [ofText, Decimal.scan?_trim_eq_some_iff.mpr h]

theorem ofText_of_not_writtenIn {text : String} (h : ∀ d : Decimal, ¬ d.WrittenIn text) :
    ofText text = .error .malformed := by
  have hscan : Decimal.scan? (Text.trim text.toList) = none := by
    rw [Option.eq_none_iff_forall_ne_some]
    intro d hd
    exact h d (Decimal.scan?_trim_eq_some_iff.mp hd)
  rw [ofText, hscan]

theorem isNearest_zero {v : BigFloat} (h : v.IsNearest 0) : v = 0 := by
  have hzero : (0 : Dyadic).toReal = 0 := by simp [toReal]
  exact h.eq_num (.of_eq (Dyadic.fits_zero 96) hzero)

/-- A text is read exactly if it is a numeral between blanks whose exponent is a 64-bit integer and
whose scale is at most 100000 in size, and then as the number nearest to what the numeral denotes,
which is zero for every zero. Any other text is malformed, save where the scale is the least 64-bit
integer. -/
theorem literals_are_rounded_numerals (text : String) :
    (∀ v, ofText text = .ok v ↔ ∃ d : Decimal, d.WrittenIn text ∧ InRange d ∧ v.IsNearest d.value) ∧
    (∀ d : Decimal, d.WrittenIn text → InRange d → d.coefficient = 0 → ofText text = .ok 0) ∧
    ((∀ d : Decimal, d.WrittenIn text → d.scale ≠ -2 ^ 63) →
      (¬ ∃ d : Decimal, d.WrittenIn text ∧ InRange d) → ofText text = .error .malformed) := by
  refine ⟨?_, ?_, ?_⟩
  · intro v
    constructor
    · intro h
      by_cases hw : ∃ d : Decimal, d.WrittenIn text
      · obtain ⟨d, hd⟩ := hw
        rw [ofText_of_writtenIn hd] at h
        exact ⟨d, hd, ofDecimal_eq_ok_iff.mp h⟩
      · rw [ofText_of_not_writtenIn (not_exists.mp hw)] at h
        cases h
    · rintro ⟨d, hd, h⟩
      rw [ofText_of_writtenIn hd]
      exact ofDecimal_eq_ok_iff.mpr h
  · intro d hd hr hzero
    obtain ⟨v, hv, hnearest⟩ := hr.exists_ofDecimal
    rw [Decimal.value_eq_zero_of_coefficient hzero, Rat.cast_zero] at hnearest
    rw [ofText_of_writtenIn hd, hv, isNearest_zero hnearest]
  · intro hmin hnone
    by_cases hw : ∃ d : Decimal, d.WrittenIn text
    · obtain ⟨d, hd⟩ := hw
      rw [ofText_of_writtenIn hd]
      rcases h : ofDecimal d with e | v
      · obtain ⟨-, rfl | ⟨-, hscale⟩⟩ := ofDecimal_eq_error h
        · rfl
        · exact absurd hscale (hmin d hd)
      · exact absurd ⟨d, hd, (ofDecimal_eq_ok_iff.mp h).1⟩ hnone
    · exact ofText_of_not_writtenIn (not_exists.mp hw)

theorem literals_are_rounded_numerals_tenth :
    ∃ v, ofText "\u3000-.01E+1\x0b" = .ok v ∧ v.IsNearest ((-1 / 10 : ℚ) : ℝ) := by
  let d : Decimal := ⟨true, [], ['0', '1'], 1⟩
  have hd : d.WrittenIn "\u3000-.01E+1\x0b" := by
    refine Decimal.scan?_trim_eq_some_iff.mp ?_
    decide
  have hr : InRange d := by constructor <;> decide
  have hvalue : d.value = -1 / 10 := by
    rw [Decimal.value_eq, show d.coefficient = 1 from rfl, show d.scale = -1 from rfl]
    norm_num [d]
  obtain ⟨v, -, hv⟩ := hr.exists_ofDecimal
  have hread := ((literals_are_rounded_numerals _).1 v).mpr ⟨d, hd, hr, hv⟩
  rw [hvalue] at hv
  exact ⟨v, hread, hv⟩

end Phasor.BigFloat
