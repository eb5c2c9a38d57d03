import Phasor.Proofs.Literal
import Phasor.Proofs.Refinement

theorem Int64.toInt_abs_of_ne_min {s : Int64} (h : s.toInt ≠ -2 ^ 63) : s.abs.toInt = |s.toInt| := by
  have hne : s.toBitVec ≠ BitVec.intMin 64 := by
    intro heq
    apply h
    rw [← Int64.toInt_toBitVec, heq]
    rfl
  rw [Int.abs_eq_natAbs]
  exact BitVec.toInt_abs_eq_natAbs_of_ne_intMin hne

theorem Int64.toNat_toUInt32_of_lt {s : Int64} (hlow : 0 ≤ s.toInt) (hhigh : s.toInt < 2 ^ 32) :
    (s.toUInt64.toUInt32.toNat : Int) = s.toInt := by
  have hcond := BitVec.toInt_eq_toNat_cond s.toBitVec
  have hnat : s.toUInt64.toNat = s.toBitVec.toNat := rfl
  rw [Int64.toInt_toBitVec] at hcond
  rw [UInt64.toNat_toUInt32, hnat]
  split at hcond <;> omega

namespace Phasor.BigFloat

/-- No step on the way from the written exponent to the power of ten wraps around: the number of
digits after the point is taken off, the magnitude and the negative are formed, and a magnitude that
is in range is taken as an unsigned 32-bit integer. -/
structure StepsExactly (d : Decimal) : Prop where
  difference : (Int64.ofInt d.exponent - Int64.ofNat d.fraction.length).toInt = d.scale
  magnitude : (Int64.ofInt d.scale).abs.toInt = |d.scale|
  negative : (-Int64.ofInt d.scale).toInt = -d.scale
  narrow : |d.scale| ≤ maxScale → ((Int64.ofInt d.scale).abs.toUInt64.toUInt32.toNat : Int) = |d.scale|

theorem stepsExactly {d : Decimal} (hfits : fitsInt64 d.scale = true) (hmin : d.scale ≠ -2 ^ 63) : StepsExactly d := by
  obtain ⟨hlow, hhigh⟩ := fitsInt64_iff.mp hfits
  have hscale : (Int64.ofInt d.scale).toInt = d.scale := Int64.toInt_ofInt_of_le hlow hhigh
  have habs : (Int64.ofInt d.scale).abs.toInt = |d.scale| := by
    rw [Int64.toInt_abs_of_ne_min (by rwa [hscale]), hscale]
  refine ⟨?_, habs, ?_, ?_⟩
  · rw [← Int64.ofInt_eq_ofNat, ← Int64.ofInt_sub]
    exact hscale
  · rw [← Int64.ofInt_neg]
    exact Int64.toInt_ofInt_of_le (by omega) (by omega)
  · intro hle
    unfold maxScale at hle
    rw [Int64.toNat_toUInt32_of_lt (by rw [habs]; exact abs_nonneg _) (by rw [habs]; omega), habs]

theorem ofDecimal_eq_exponentOverflow_iff {d : Decimal} :
    ofDecimal d = .error .exponentOverflow ↔ d.exponent < 2 ^ 63 ∧ d.scale = -2 ^ 63 := by
  constructor
  · intro h
    obtain ⟨-, herr | ⟨-, hscale⟩⟩ := ofDecimal_eq_error h
    · cases herr
    · refine ⟨?_, hscale⟩
      by_contra hexp
      have hfits : fitsInt64 d.exponent = false := by
        rw [← Bool.not_eq_true, fitsInt64_iff]
        omega
      rw [ofDecimal, hfits] at h
      cases h
  · rintro ⟨hexp, hscale⟩
    have hlow : -2 ^ 63 ≤ d.exponent := by
      rw [Decimal.scale] at hscale
      omega
    unfold ofDecimal
    rw [fitsInt64_iff.mpr ⟨hlow, hexp⟩, hscale]
    rfl

theorem ofDecimal_of_scale {d : Decimal} (hmin : d.scale ≠ -2 ^ 63) (h : d.scale < -maxScale ∨ maxScale < d.scale) :
    ofDecimal d = .error .malformed := by
  rcases hd : ofDecimal d with e | v
  · obtain ⟨-, rfl | ⟨-, hscale⟩⟩ := ofDecimal_eq_error hd
    · rfl
    · exact absurd hscale hmin
  · have hrange := (ofDecimal_eq_ok_iff.mp hd).1.scale
    unfold maxScale at h
    omega

theorem ofText_eq_exponentOverflow_iff {text : String} : ofText text = .error .exponentOverflow ↔
    ∃ d : Decimal, d.WrittenIn text ∧ d.exponent < 2 ^ 63 ∧ d.scale = -2 ^ 63 := by
  constructor
  · intro h
    by_cases hw : ∃ d : Decimal, d.WrittenIn text
    · obtain ⟨d, hd⟩ := hw
      rw [ofText_of_writtenIn hd] at h
      exact ⟨d, hd, ofDecimal_eq_exponentOverflow_iff.mp h⟩
    · rw [ofText_of_not_writtenIn (not_exists.mp hw)] at h
      cases h
  · rintro ⟨d, hd, h⟩
    rw [ofText_of_writtenIn hd]
    exact ofDecimal_eq_exponentOverflow_iff.mpr h

theorem ofTokens_of_reaches_literal {scope : Scope} {settings : Settings} {parameter : String} {tokens : List Token}
    {text : String} {e : Error} (h : Build.Reaches .high scope settings parameter tokens (.number text))
    (he : Precision.high.number text = .error e) :
    (Artifact.ofTokens scope settings parameter tokens : Except Error (Artifact .high)) = .error e := by
  rw [Artifact.ofTokens_eq_error]
  apply Build.parse_of_reaches h
  intro trees
  rw [Tree.push, he]
  rfl

/-- A text overflows exactly if the scale of its numeral is the least 64-bit integer. For every
other numeral the steps on 64-bit integers are those on all integers, and if its scale is out of
range the text is malformed at high precision and compilation refuses it by name. -/
theorem scales_out_of_range_are_refused (text : String) :
    (ofText text = .error .exponentOverflow ↔
      ∃ d : Decimal, d.WrittenIn text ∧ d.exponent < 2 ^ 63 ∧ d.scale = -2 ^ 63) ∧
    ∀ d : Decimal, d.WrittenIn text → d.scale ≠ -2 ^ 63 →
      (fitsInt64 d.exponent = true → fitsInt64 d.scale = true → StepsExactly d) ∧
      (d.scale < -100000 ∨ 100000 < d.scale →
        ofText text = .error .malformed ∧ Precision.high.literal text = .error .malformed ∧
        ∀ scope settings parameter tokens, Build.Reaches .high scope settings parameter tokens (.number text) →
          (Artifact.ofTokens scope settings parameter tokens : Except Error (Artifact .high)) =
            .error (.invalidNumber text)) := by
  refine ⟨ofText_eq_exponentOverflow_iff, ?_⟩
  intro d hd hmin
  refine ⟨fun _ hfits => stepsExactly hfits hmin, ?_⟩
  intro hrange
  have hread : ofText text = .error .malformed := by
    rw [ofText_of_writtenIn hd]
    exact ofDecimal_of_scale hmin hrange
  have hliteral : Precision.high.literal text = .error .malformed := by
    rw [Precision.literal, hread]
    rfl
  refine ⟨hread, hliteral, ?_⟩
  intro scope settings parameter tokens hreach
  apply ofTokens_of_reaches_literal hreach
  rw [Precision.number, hliteral]

theorem scales_out_of_range_are_refused_beside_least :
    let text := "1.25e-9223372036854775805"
    let d : Decimal := ⟨false, ['1'], ['2', '5'], -9223372036854775805⟩
    d.WrittenIn text ∧ d.scale = -2 ^ 63 + 1 ∧ StepsExactly d ∧ ofText text ≠ .error .exponentOverflow ∧
      (Artifact.ofTokens ⟨fun _ => none, fun _ => none⟩ {} "x" [.identifier "x", .number text, .operator "+"] :
        Except Error (Artifact .high)) = .error (.invalidNumber text) := by
  intro text d
  have hd : d.WrittenIn text := by
    refine Decimal.scan?_trim_eq_some_iff.mp ?_
    decide
  have hscale : d.scale = -2 ^ 63 + 1 := by decide
  obtain ⟨hsteps, hrefused⟩ := (scales_out_of_range_are_refused text).2 d hd (by decide)
  obtain ⟨hread, -, hcompile⟩ := hrefused (by decide)
  refine ⟨hd, hscale, hsteps (by decide) (by decide), by rw [hread]; decide, hcompile _ _ _ _ ?_⟩
  exact ⟨[.identifier "x"], [.operator "+"], rfl, _, rfl⟩

/-- The least 64-bit integer as a scale: its magnitude is negative, and neither reading nor
compilation refuses the text as malformed. -/
theorem least_scale_overflows :
    let text := "1e-9223372036854775808"
    let d : Decimal := ⟨false, ['1'], [], -9223372036854775808⟩
    d.WrittenIn text ∧ d.scale < -100000 ∧ (Int64.ofInt d.scale).abs.toInt = d.scale ∧ ¬ StepsExactly d ∧
      ofText text = .error .exponentOverflow ∧
      (Artifact.ofTokens ⟨fun _ => none, fun _ => none⟩ {} "x" [.number text] : Except Error (Artifact .high)) =
        .error .exponentOverflow := by
  intro text d
  have hd : d.WrittenIn text := by
    refine Decimal.scan?_trim_eq_some_iff.mp ?_
    decide
  have hwrap : (Int64.ofInt d.scale).abs.toInt = d.scale := by decide
  have hread : ofText text = .error .exponentOverflow :=
    ofText_eq_exponentOverflow_iff.mpr ⟨d, hd, by decide, by decide⟩
  refine ⟨hd, by decide, hwrap, ?_, hread, ?_⟩
  · intro hsteps
    have hmagnitude := hsteps.magnitude
    rw [hwrap] at hmagnitude
    exact absurd hmagnitude (by decide)
  · have hreach : Build.Reaches .high ⟨fun _ => none, fun _ => none⟩ {} "x" [.number text] (.number text) :=
      ⟨[], [], rfl, _, rfl⟩
    apply ofTokens_of_reaches_literal hreach
    rw [Precision.number, Precision.literal, hread]
    rfl

end Phasor.BigFloat
