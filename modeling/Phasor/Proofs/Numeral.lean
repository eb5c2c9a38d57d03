import Mathlib.Data.Rat.Floor
import Mathlib.Tactic.Linarith
import Phasor.Decimal
import Phasor.Text.Blank

namespace Phasor.Decimal

def value (d : Decimal) : ℚ := (if d.negative then -1 else 1) * (d.coefficient * 10 ^ d.scale)

theorem value_eq (d : Decimal) :
    d.value = ((if d.negative then -d.coefficient else d.coefficient : Int) : ℚ) * 10 ^ d.scale := by
  unfold value
  split <;> push_cast <;> ring

def Digits (cs : List Char) : Prop := ∀ c ∈ cs, c.isDigit = true

theorem Digits.append {cs ds : List Char} (hcs : Digits cs) (hds : Digits ds) : Digits (cs ++ ds) := by
  intro c hc
  rcases List.mem_append.mp hc with h | h
  · exact hcs c h
  · exact hds c h

inductive Signed : Bool → List Char → Prop
  | none : Signed false []
  | plus : Signed false ['+']
  | minus : Signed true ['-']

inductive Pointed : List Char → List Char → Prop
  | none : Pointed [] []
  | point (fraction : List Char) : Pointed fraction ('.' :: fraction)

inductive Marked : Int → List Char → Prop
  | none : Marked 0 []
  | mark {c : Char} {negative : Bool} {sign ds : List Char} : isMark c = true → Signed negative sign → ds ≠ [] →
      Digits ds → Marked (if negative then -(Nat.ofDigitChars 10 ds 0 : Int) else Nat.ofDigitChars 10 ds 0)
        (c :: (sign ++ ds))

/-- The texts of a numeral: a sign or none, the digits with a point before the fraction, and the
exponent with its mark. A point may be left out where there is no fraction, the exponent where it is
zero. -/
structure Spelled (d : Decimal) (cs : List Char) : Prop where
  parts : ∃ sign point mark, Signed d.negative sign ∧ Pointed d.fraction point ∧ Marked d.exponent mark ∧
    cs = sign ++ (d.whole ++ point ++ mark)
  nonempty : d.whole ++ d.fraction ≠ []
  digits : Digits (d.whole ++ d.fraction)

theorem takeWhile_append_stop {p : Char → Bool} {l r : List Char} (hl : ∀ c ∈ l, p c = true)
    (hr : ∀ c ∈ r.head?, p c = false) : (l ++ r).takeWhile p = l := by
  rw [List.takeWhile_append_of_pos hl]
  cases r with
  | nil => simp
  | cons c r => simp [hr c rfl]

theorem dropWhile_append_stop {p : Char → Bool} {l r : List Char} (hl : ∀ c ∈ l, p c = true)
    (hr : ∀ c ∈ r.head?, p c = false) : (l ++ r).dropWhile p = r := by
  rw [List.dropWhile_append_of_pos hl]
  cases r with
  | nil => rfl
  | cons c r => simp [hr c rfl]

theorem splitSign_append {negative : Bool} {sign cs : List Char} (hs : Signed negative sign)
    (hc : ∀ c ∈ cs.head?, c ≠ '-' ∧ c ≠ '+') : splitSign (sign ++ cs) = (negative, cs) := by
  cases hs with
  | plus => rfl
  | minus => rfl
  | none =>
    cases cs with
    | nil => rfl
    | cons c cs =>
      obtain ⟨hminus, hplus⟩ := hc c rfl
      simp only [List.nil_append]
      unfold splitSign
      split
      · rename_i h
        exact absurd (List.cons.inj h).1 hminus
      · rename_i h
        exact absurd (List.cons.inj h).1 hplus
      · rfl

theorem ne_of_isDigit {c : Char} (h : c.isDigit = true) : c ≠ '-' ∧ c ≠ '+' ∧ c ≠ '.' ∧ isMark c = false := by
  refine ⟨?_, ?_, ?_, ?_⟩
  · rintro rfl
    exact absurd h (by decide)
  · rintro rfl
    exact absurd h (by decide)
  · rintro rfl
    exact absurd h (by decide)
  · by_contra hm
    simp only [isMark, Bool.not_eq_false, Bool.or_eq_true, beq_iff_eq] at hm
    rcases hm with rfl | rfl
    · exact absurd h (by decide)
    · exact absurd h (by decide)

theorem head_of_digits {ds : List Char} (h : Digits ds) : ∀ c ∈ ds.head?, c ≠ '-' ∧ c ≠ '+' := by
  intro c hc
  obtain ⟨hminus, hplus, -⟩ := ne_of_isDigit (h c (List.mem_of_mem_head? hc))
  exact ⟨hminus, hplus⟩

theorem integer?_eq {negative : Bool} {sign ds : List Char} (hs : Signed negative sign) (hne : ds ≠ [])
    (hd : Digits ds) : integer? (sign ++ ds) =
      some (if negative then -(Nat.ofDigitChars 10 ds 0 : Int) else Nat.ofDigitChars 10 ds 0) := by
  unfold integer?
  rw [splitSign_append hs (head_of_digits hd)]
  exact if_pos ⟨hne, List.all_eq_true.mpr hd⟩

theorem Pointed.mem {fraction point : List Char} (h : Pointed fraction point) {c : Char} (hc : c ∈ point) :
    c = '.' ∨ c ∈ fraction := by
  cases h with
  | none => exact absurd hc (List.not_mem_nil)
  | point => exact List.mem_cons.mp hc

theorem Pointed.head {fraction point : List Char} (h : Pointed fraction point) :
    ∀ c ∈ point.head?, c = '.' := by
  cases h with
  | none => simp
  | point => simp

theorem Marked.head {exponent : Int} {mark : List Char} (h : Marked exponent mark) :
    ∀ c ∈ mark.head?, isMark c = true := by
  cases h with
  | none => simp
  | mark hc => simpa using hc

theorem head_of_mantissa {whole fraction point : List Char} (hp : Pointed fraction point)
    (hne : whole ++ fraction ≠ []) (hd : Digits (whole ++ fraction)) (mark : List Char) :
    ∀ c ∈ (whole ++ point ++ mark).head?, c ≠ '-' ∧ c ≠ '+' := by
  intro c hc
  cases whole with
  | cons w whole =>
    obtain rfl : w = c := by simpa using hc
    obtain ⟨hminus, hplus, -⟩ := ne_of_isDigit (hd w (by simp))
    exact ⟨hminus, hplus⟩
  | nil =>
    cases hp with
    | none => exact absurd rfl hne
    | point =>
      obtain rfl : '.' = c := by simpa using hc
      decide

theorem scan?_of_spelled {d : Decimal} {cs : List Char} (h : Spelled d cs) : scan? cs = some d := by
  obtain ⟨negative, whole, fraction, exponent⟩ := d
  obtain ⟨⟨sign, point, mark, hs, hp, hm, rfl⟩, hne, hd⟩ := h
  simp only at hs hp hm hne hd
  have hdigit : ∀ c ∈ whole ++ point, c = '.' ∨ c.isDigit = true := by
    intro c hc
    rcases List.mem_append.mp hc with hc | hc
    · exact .inr (hd c (List.mem_append_left _ hc))
    · exact (hp.mem hc).imp_right (fun hc => hd c (List.mem_append_right _ hc))
  have hmantissa : ∀ c ∈ whole ++ point, (!isMark c) = true := by
    intro c hc
    rcases hdigit c hc with rfl | hc
    · rfl
    · simp [(ne_of_isDigit hc).2.2.2]
  have hmark : ∀ c ∈ mark.head?, (!isMark c) = false := fun c hc => by simp [hm.head c hc]
  have hwhole : ∀ c ∈ whole, decide (c ≠ '.') = true := fun c hc =>
    decide_eq_true (ne_of_isDigit (hd c (List.mem_append_left _ hc))).2.2.1
  have hpoint : ∀ c ∈ point.head?, decide (c ≠ '.') = false := fun c hc => by simp [hp.head c hc]
  have hfraction : point.drop 1 = fraction := by
    cases hp with
    | none => rfl
    | point => rfl
  unfold scan?
  rw [splitSign_append hs (head_of_mantissa hp hne hd mark)]
  simp only [takeWhile_append_stop hmantissa hmark, dropWhile_append_stop hmantissa hmark,
    takeWhile_append_stop hwhole hpoint, dropWhile_append_stop hwhole hpoint, hfraction]
  cases hm with
  | none => exact if_pos ⟨hne, List.all_eq_true.mpr hd⟩
  | mark _ hs hds hds' =>
    simp only [integer?_eq hs hds hds']
    exact if_pos ⟨hne, List.all_eq_true.mpr hd⟩

theorem isBlank_of_isDigit {c : Char} (h : c.isDigit = true) : Text.isBlank c = false := by
  simp only [Char.isDigit, Bool.and_eq_true, decide_eq_true_eq, UInt32.le_iff_toNat_le] at h
  simp only [Text.isBlank, Char.toNat]
  grind

theorem isBlank_of_isMark {c : Char} (h : isMark c = true) : Text.isBlank c = false := by
  simp only [isMark, Bool.or_eq_true, beq_iff_eq] at h
  rcases h with rfl | rfl
  · decide
  · decide

theorem Signed.isBlank_eq_false {negative : Bool} {sign : List Char} (h : Signed negative sign) {c : Char}
    (hc : c ∈ sign) : Text.isBlank c = false := by
  cases h with
  | none => exact absurd hc List.not_mem_nil
  | plus =>
    obtain rfl := List.mem_singleton.mp hc
    decide
  | minus =>
    obtain rfl := List.mem_singleton.mp hc
    decide

theorem Marked.isBlank_eq_false {exponent : Int} {mark : List Char} (h : Marked exponent mark) {c : Char}
    (hc : c ∈ mark) : Text.isBlank c = false := by
  cases h with
  | none => exact absurd hc List.not_mem_nil
  | mark hmark hs _ hds =>
    rcases List.mem_cons.mp hc with rfl | hc
    · exact isBlank_of_isMark hmark
    · rcases List.mem_append.mp hc with hc | hc
      · exact hs.isBlank_eq_false hc
      · exact isBlank_of_isDigit (hds c hc)

theorem Spelled.isBlank_eq_false {d : Decimal} {cs : List Char} (h : Spelled d cs) {c : Char} (hc : c ∈ cs) :
    Text.isBlank c = false := by
  obtain ⟨⟨sign, point, mark, hs, hp, hm, rfl⟩, -, hd⟩ := h
  simp only [List.mem_append] at hc
  rcases hc with hc | (hc | hc) | hc
  · exact hs.isBlank_eq_false hc
  · exact isBlank_of_isDigit (hd c (List.mem_append_left _ hc))
  · rcases hp.mem hc with rfl | hc
    · decide
    · exact isBlank_of_isDigit (hd c (List.mem_append_right _ hc))
  · exact hm.isBlank_eq_false hc

theorem trim_eq_self {cs : List Char} (h : ∀ c ∈ cs, Text.isBlank c = false) : Text.trim cs = cs := by
  have hdrop {ds : List Char} (hd : ∀ c ∈ ds, Text.isBlank c = false) : ds.dropWhile Text.isBlank = ds := by
    cases ds with
    | nil => rfl
    | cons c ds => simp [hd c (List.mem_cons_self)]
  unfold Text.trim
  rw [hdrop h, hdrop (fun c hc => h c (List.mem_reverse.mp hc)), List.reverse_reverse]

end Phasor.Decimal
