import Phasor.BigFloat.Elementary
import Phasor.BigFloat.Text
import Phasor.Proofs.Mantissa

namespace Phasor.BigFloat

open Dyadic

theorem precision_pos : 0 < precision := by decide

def Fits (p : Nat) : BigFloat → Prop
  | nan => True
  | num x => x.Fits p

theorem fits_map {p : Nat} {f : Dyadic → Dyadic} (hf : ∀ x, (f x).Fits p) (x : BigFloat) : (x.map f).Fits p := by
  cases x with
  | nan => trivial
  | num x => exact hf x

theorem fits_map₂ {p : Nat} {f : Dyadic → Dyadic → Dyadic} (hf : ∀ x y, (f x y).Fits p) (x y : BigFloat) :
    (x.map₂ f y).Fits p := by
  cases x with
  | nan => cases y <;> trivial
  | num x =>
    cases y with
    | nan => trivial
    | num y => exact hf x y

theorem Fits.map {p : Nat} {f : Dyadic → Dyadic} (hf : ∀ x : Dyadic, x.Fits p → (f x).Fits p) {x : BigFloat}
    (h : x.Fits p) : (x.map f).Fits p := by
  cases x with
  | nan => trivial
  | num x => exact hf x h

theorem fits_roundTo {p : Nat} (hp : 0 < p) (x : BigFloat) : (x.roundTo p).Fits p :=
  fits_map (Dyadic.fits_roundTo hp) x

theorem fits_add (x y : BigFloat) : (x + y).Fits precision :=
  fits_map₂ (fits_addTo precision_pos) x y

theorem fits_sub (x y : BigFloat) : (x - y).Fits precision :=
  fits_map₂ (fun x y => fits_addTo precision_pos x (-y)) x y

theorem fits_mul (x y : BigFloat) : (x * y).Fits precision :=
  fits_map₂ (fun x y => Dyadic.fits_roundTo precision_pos (x * y)) x y

theorem fits_div (x y : BigFloat) : (x / y).Fits precision := by
  change (divTo precision x y).Fits precision
  unfold divTo
  split
  · trivial
  · exact fits_map₂ (fits_divTo precision_pos) x y

theorem fits_sqrt (x : BigFloat) : x.sqrt.Fits precision := by
  unfold sqrt sqrtTo
  split
  · trivial
  · exact fits_map (fits_sqrtTo precision_pos) x

theorem fits_ofInt {p : Nat} {n : Int} (hp : 0 < p) (h : n.natAbs ≤ 2 ^ p) : (ofInt n).Fits p :=
  fits_scaled hp h 0

theorem fits_zero (p : Nat) : (0 : BigFloat).Fits p :=
  Dyadic.fits_zero p

theorem fits_one {p : Nat} (hp : 0 < p) : (1 : BigFloat).Fits p :=
  fits_ofInt hp Nat.one_le_two_pow

theorem fits_magnitude (pattern : Nat) : (Binary64.magnitude pattern).Fits precision := by
  have hfraction : pattern % 1 <<< 52 < 2 ^ 52 := Nat.mod_lt _ (by decide)
  unfold Binary64.magnitude
  dsimp only
  split
  · apply fits_scaled precision_pos
    exact hfraction.le.trans (by decide)
  · apply fits_scaled precision_pos
    have hsum : pattern % 1 <<< 52 + 1 <<< 52 ≤ 2 ^ 52 + 2 ^ 52 := Nat.add_le_add_right hfraction.le _
    exact hsum.trans (by decide)

theorem fits_ofBits (bits : UInt64) : (ofBits bits).Fits precision := by
  unfold ofBits Binary64.toDyadic?
  dsimp only
  split
  · rename_i x hx
    split at hx
    · obtain rfl := Option.some.inj hx
      split
      · exact fits_magnitude _
      · exact (fits_magnitude _).neg
    · simp at hx
  · trivial

theorem fits_ofText {text : String} {x : BigFloat} (h : ofText text = .ok x) : x.Fits precision := by
  unfold ofText at h
  split at h
  · simp at h
  · unfold ofDecimal at h
    split at h
    · simp at h
    · split at h
      · simp at h
      · split at h
        · simp at h
        · obtain rfl := Except.ok.inj h
          change Dyadic.Fits _ _
          split
          · exact fits_roundScaled precision_pos _ _
          · exact fits_roundQuotient precision_pos _ _ _

theorem fits_expTo {p : Nat} (hp : 0 < p) (x : Dyadic) : (expTo p x).Fits p := by
  unfold expTo
  split
  · exact fits_one hp
  · split
    · split
      · exact fits_zero p
      · trivial
    · exact Dyadic.fits_roundTo hp _

theorem fits_logTo {p : Nat} (hp : 0 < p) (x : Dyadic) : (logTo p x).Fits p := by
  unfold logTo
  split
  · trivial
  · split
    · exact fits_zero p
    · exact Dyadic.fits_roundTo hp _

theorem fits_sinCosTo {p : Nat} (hp : 0 < p) (x : Dyadic) :
    (sinCosTo p x).1.Fits p ∧ (sinCosTo p x).2.Fits p := by
  unfold sinCosTo
  split
  · exact ⟨fits_zero p, fits_one hp⟩
  · split
    · exact ⟨trivial, trivial⟩
    · exact ⟨Dyadic.fits_roundTo hp _, Dyadic.fits_roundTo hp _⟩

theorem fits_sinhCoshTo {p : Nat} (hp : 0 < p) (x : Dyadic) :
    (sinhCoshTo p x).1.Fits p ∧ (sinhCoshTo p x).2.Fits p := by
  unfold sinhCoshTo
  split
  · exact ⟨fits_zero p, fits_one hp⟩
  · exact ⟨fits_roundTo hp _, fits_roundTo hp _⟩

theorem fits_atan2To {p : Nat} (hp : 0 < p) (y x : Dyadic) : (atan2To p y x).Fits p := by
  have hpi : (piTo p).Fits p := Dyadic.fits_roundTo hp _
  unfold atan2To
  split
  · -- on the vertical axis half of pi is not rounded again, for halving leaves the mantissa alone
    split
    · exact Dyadic.fits_zero p
    · split
      · exact (hpi.shiftRight 1).neg
      · exact hpi.shiftRight 1
  · exact Dyadic.fits_roundTo hp _

inductive Obtained : BigFloat → Prop
  | zero : Obtained 0
  | one : Obtained 1
  | nan : Obtained nan
  | ofInt {n : Int} (h : fitsInt64 n = true) : Obtained (ofInt n)
  | ofBits (bits : UInt64) : Obtained (ofBits bits)
  | ofText {text : String} {x : BigFloat} (h : ofText text = .ok x) : Obtained x
  | pi : Obtained pi
  | e : Obtained e
  | neg {x : BigFloat} (hx : Obtained x) : Obtained (-x)
  | abs {x : BigFloat} (hx : Obtained x) : Obtained x.abs
  | scale {x : BigFloat} (hx : Obtained x) (k : Int) : Obtained (x.scale k)
  | add {x y : BigFloat} (hx : Obtained x) (hy : Obtained y) : Obtained (x + y)
  | sub {x y : BigFloat} (hx : Obtained x) (hy : Obtained y) : Obtained (x - y)
  | mul {x y : BigFloat} (hx : Obtained x) (hy : Obtained y) : Obtained (x * y)
  | div {x y : BigFloat} (hx : Obtained x) (hy : Obtained y) : Obtained (x / y)
  | sqrt {x : BigFloat} (hx : Obtained x) : Obtained x.sqrt
  | exp {x : BigFloat} (hx : Obtained x) : Obtained x.exp
  | log {x : BigFloat} (hx : Obtained x) : Obtained x.log
  | sin {x : BigFloat} (hx : Obtained x) : Obtained x.sinCos.1
  | cos {x : BigFloat} (hx : Obtained x) : Obtained x.sinCos.2
  | sinh {x : BigFloat} (hx : Obtained x) : Obtained x.sinhCosh.1
  | cosh {x : BigFloat} (hx : Obtained x) : Obtained x.sinhCosh.2
  | atan2 {y x : BigFloat} (hy : Obtained y) (hx : Obtained x) : Obtained (y.atan2 x)

theorem fits_exp (x : BigFloat) : x.exp.Fits precision := by
  cases x with
  | nan => trivial
  | num x => exact fits_expTo precision_pos x

theorem Obtained.fits {x : BigFloat} (h : x.Obtained) : x.Fits precision := by
  induction h with
  | zero => exact fits_zero _
  | one => exact fits_one precision_pos
  | nan => trivial
  | @ofInt n h =>
    have hn : n.natAbs ≤ 2 ^ 63 := by
      obtain ⟨hl, hu⟩ := (Bool.and_eq_true _ _).mp h
      have hl := of_decide_eq_true hl
      have hu := of_decide_eq_true hu
      unfold int64Bound at hl hu
      omega
    exact fits_ofInt precision_pos (hn.trans (by decide))
  | ofBits bits => exact fits_ofBits bits
  | ofText h => exact fits_ofText h
  | pi => exact Dyadic.fits_roundTo precision_pos _
  | e => exact fits_exp 1
  | neg _ ih => exact ih.map (fun _ h => h.neg)
  | abs _ ih => exact ih.map (fun _ h => h.abs)
  | scale _ k ih => exact ih.map (fun _ h => h.shiftLeft k)
  | add => exact fits_add _ _
  | sub => exact fits_sub _ _
  | mul => exact fits_mul _ _
  | div => exact fits_div _ _
  | sqrt => exact fits_sqrt _
  | exp => exact fits_exp _
  | @log x _ _ =>
    cases x with
    | nan => trivial
    | num x => exact fits_logTo precision_pos x
  | @sin x _ _ =>
    cases x with
    | nan => trivial
    | num x => exact (fits_sinCosTo precision_pos x).1
  | @cos x _ _ =>
    cases x with
    | nan => trivial
    | num x => exact (fits_sinCosTo precision_pos x).2
  | @sinh x _ _ =>
    cases x with
    | nan => trivial
    | num x => exact (fits_sinhCoshTo precision_pos x).1
  | @cosh x _ _ =>
    cases x with
    | nan => trivial
    | num x => exact (fits_sinhCoshTo precision_pos x).2
  | atan2 => exact fits_map₂ (fits_atan2To precision_pos) _ _

def Denotes : BigFloat → ℚ → Prop
  | nan, _ => False
  | num x, q => q = x.mantissa * 2 ^ x.exponent

theorem num_inj_of_denotes {x y : Dyadic} {q : ℚ} (hx : (num x).Denotes q) (hy : (num y).Denotes q) : x = y := by
  apply toRat_inj.mp
  rw [toRat_eq_mantissa_mul, toRat_eq_mantissa_mul]
  exact Eq.trans (Eq.symm hx) hy

/-- Every value that can be obtained is undefined, or zero in the one form that zero has, or a
number with an odd mantissa of at most 96 binary digits. So two of them are the same exactly if both
are undefined or stand for the same number. -/
theorem obtained_has_one_form {x : BigFloat} (hx : x.Obtained) :
    (x = nan ∨ ∃ a, x = num a ∧ (a.mantissa = 0 ∧ a.exponent = 0 ∨
      a.mantissa % 2 = 1 ∧ bitLength a.mantissa.natAbs ≤ 96)) ∧
    ∀ y : BigFloat, y.Obtained → (x = y ↔ x = nan ∧ y = nan ∨ ∃ q, x.Denotes q ∧ y.Denotes q) := by
  constructor
  · cases x with
    | nan => exact .inl rfl
    | num a =>
      refine .inr ⟨a, rfl, ?_⟩
      by_cases ha : a = 0
      · subst ha
        exact .inl ⟨rfl, rfl⟩
      · exact .inr ⟨mantissa_mod_two ha, hx.fits⟩
  · intro y _
    constructor
    · rintro rfl
      cases x with
      | nan => exact .inl ⟨rfl, rfl⟩
      | num a => exact .inr ⟨_, rfl, rfl⟩
    · rintro (⟨rfl, rfl⟩ | ⟨q, hq, hq'⟩)
      · rfl
      · cases x with
        | nan => exact hq.elim
        | num a =>
          cases y with
          | nan => exact hq'.elim
          | num b => rw [num_inj_of_denotes hq hq']

theorem obtained_has_one_form_twelve : (ofInt 6 * ofInt 2).Obtained ∧ (ofInt 12).Obtained ∧
    ∃ q, (ofInt 6 * ofInt 2).Denotes q ∧ (ofInt 12).Denotes q := by
  have hx : (ofInt 6 * ofInt 2).Obtained := .mul (.ofInt (by decide)) (.ofInt (by decide))
  have hy : (ofInt 12).Obtained := .ofInt (by decide)
  have heq : ofInt 6 * ofInt 2 = ofInt 12 := by decide
  exact ⟨hx, hy, (((obtained_has_one_form hx).2 _ hy).mp heq).resolve_left (by decide)⟩

end Phasor.BigFloat
