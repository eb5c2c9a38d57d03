import Phasor.Proofs.Numeral
import Phasor.Token.Json

namespace Phasor.Json

open Decimal (Digits Signed)

def Space (w : List Char) : Prop := ∀ c ∈ w, c ∈ [' ', '\t', '\r', '\n']

theorem Space.nil : Space [] := nofun

theorem isSpace_eq_true {c : Char} : isSpace c = true ↔ c ∈ [' ', '\t', '\r', '\n'] := by
  simp [isSpace, or_assoc]

theorem skipSpace_append {u : List Char} (hu : Space u) (cs : List Char) : skipSpace (u ++ cs) = skipSpace cs :=
  List.dropWhile_append_of_pos (fun c hc => isSpace_eq_true.mpr (hu c hc))

theorem skipSpace_cons {c : Char} (hc : isSpace c = false) (cs : List Char) : skipSpace (c :: cs) = c :: cs := by
  rw [skipSpace, List.dropWhile_cons_of_neg (by simp [hc])]

theorem expect_append {u : List Char} (hu : Space u) (c : Char) (cs : List Char) :
    expect c (u ++ cs) = expect c cs := by
  rw [expect, expect, skipSpace_append hu]

theorem expect_cons {c d : Char} (hd : isSpace d = false) (cs : List Char) :
    expect c (d :: cs) = if d = c then some cs else none := by
  simp only [expect, skipSpace_cons hd]

theorem expect_self {u : List Char} (hu : Space u) {c : Char} (hc : isSpace c = false) (rest : List Char) :
    expect c (u ++ c :: rest) = some rest := by
  rw [expect_append hu, expect_cons hc, if_pos rfl]

def shortEscapes : List (Char × Char) :=
  [('"', '"'), ('\\', '\\'), ('/', '/'), ('b', '\x08'), ('f', '\x0c'), ('n', '\n'), ('r', '\r'), ('t', '\t')]

def HexDigit (n : Nat) (c : Char) : Prop := n < 16 ∧ (c = Nat.digitChar n ∨ c = (Nat.digitChar n).toUpper)

inductive Piece.Spelled : Piece → List Char → Prop
  | plain {c : Char} (hc : 0x20 ≤ c.toNat) (hquote : c ≠ '"') (hescape : c ≠ '\\') : Spelled (.char c) [c]
  | short {e c : Char} (h : (e, c) ∈ shortEscapes) : Spelled (.char c) ['\\', e]
  | code {a b c d : Char} {i j k l : Nat} (ha : HexDigit i a) (hb : HexDigit j b) (hc : HexDigit k c)
      (hd : HexDigit l d) : Spelled (.code (((i * 16 + j) * 16 + k) * 16 + l)) ['\\', 'u', a, b, c, d]

inductive Pieced : List Piece → List Char → Prop
  | nil : Pieced [] []
  | cons {q : Piece} {qs : List Piece} {v w : List Char} (hq : q.Spelled v) (hqs : Pieced qs w) :
      Pieced (q :: qs) (v ++ w)

inductive Means : List Piece → List Char → Prop
  | nil : Means [] []
  | char {c : Char} {qs : List Piece} {cs : List Char} (h : Means qs cs) : Means (.char c :: qs) (c :: cs)
  | code {c : Char} {qs : List Piece} {cs : List Char} (hc : c.toNat < 0x10000) (h : Means qs cs) :
      Means (.code c.toNat :: qs) (c :: cs)
  | pair {c : Char} {qs : List Piece} {cs : List Char} (hc : 0x10000 ≤ c.toNat) (h : Means qs cs) :
      Means (.code (0xd800 + (c.toNat - 0x10000) / 0x400) :: .code (0xdc00 + (c.toNat - 0x10000) % 0x400) :: qs)
        (c :: cs)

inductive Quoted (qs : List Piece) : List Char → Prop
  | mk {w : List Char} (h : Pieced qs w) : Quoted qs ('"' :: (w ++ ['"']))

def IsString (s : String) (v : List Char) : Prop := ∃ qs, Quoted qs v ∧ Means qs s.toList

theorem hexValue?_eq_some {n : Nat} {c : Char} (h : HexDigit n c) : hexValue? c = some n := by
  obtain ⟨hn, rfl | rfl⟩ := h
  · revert n
    decide
  · revert n
    decide

theorem pieces_plain {c : Char} (hc : 0x20 ≤ c.toNat) (hquote : c ≠ '"') (hescape : c ≠ '\\') (rest : List Char) :
    pieces (c :: rest) = (pieces rest).map (fun r => (.char c :: r.1, r.2)) := by
  have hcond : ¬ (c.toNat < 0x20 ∨ c = '\\') := by
    rintro (h | h)
    · omega
    · exact hescape h
  rw [pieces, if_neg hcond]
  · cases pieces rest <;> rfl
  all_goals simp_all

theorem pieces_short {e c : Char} (h : (e, c) ∈ shortEscapes) (rest : List Char) :
    pieces ('\\' :: e :: rest) = (pieces rest).map (fun r => (.char c :: r.1, r.2)) := by
  have htable : ∀ x ∈ shortEscapes, x.1 ≠ 'u' ∧ unescape? x.1 = some x.2 := by decide
  have hu := htable (e, c) h
  rw [pieces, hu.2]
  · cases pieces rest <;> rfl
  · simp_all

theorem pieces_code {a b c d : Char} {i j k l : Nat} (ha : HexDigit i a) (hb : HexDigit j b) (hc : HexDigit k c)
    (hd : HexDigit l d) (rest : List Char) : pieces ('\\' :: 'u' :: a :: b :: c :: d :: rest) =
      (pieces rest).map (fun r => (.code (((i * 16 + j) * 16 + k) * 16 + l) :: r.1, r.2)) := by
  have hcode : code? a b c d = some (((i * 16 + j) * 16 + k) * 16 + l) := by
    simp [code?, hexValue?_eq_some ha, hexValue?_eq_some hb, hexValue?_eq_some hc, hexValue?_eq_some hd]
  rw [pieces, hcode]
  cases pieces rest <;> rfl

theorem pieces_append {q : Piece} {v : List Char} (hq : q.Spelled v) (rest : List Char) :
    pieces (v ++ rest) = (pieces rest).map (fun r => (q :: r.1, r.2)) := by
  cases hq with
  | plain hc hquote hescape => exact pieces_plain hc hquote hescape rest
  | short h => exact pieces_short h rest
  | code ha hb hc hd => exact pieces_code ha hb hc hd rest

theorem Pieced.pieces_eq {qs : List Piece} {w : List Char} (h : Pieced qs w) (rest : List Char) :
    pieces (w ++ '"' :: rest) = some (qs, rest) := by
  induction h with
  | nil => rw [List.nil_append, pieces]
  | cons hq _ ih => rw [List.append_assoc, pieces_append hq, ih, Option.map_some]

theorem joined_code {n : Nat} (hn : n < 0xd800 ∨ 0xe000 ≤ n) (qs : List Piece) :
    joined (.code n :: qs) = (joined qs).map (Char.ofNat n :: ·) := by
  have hhigh : ¬ (0xd800 ≤ n ∧ n < 0xdc00) := by omega
  have hlow : ¬ (0xdc00 ≤ n ∧ n < 0xe000) := by omega
  have hhalf : ¬ (0xd800 ≤ n ∧ n < 0xe000) := by omega
  rcases qs with - | ⟨c | m, qs⟩
  · simp only [joined, if_neg hhalf]
  · simp only [joined, if_neg hhalf]
  · rw [joined, if_neg hhigh, if_neg hlow]

theorem Means.joined_eq {qs : List Piece} {cs : List Char} (h : Means qs cs) : joined qs = some cs := by
  induction h with
  | nil => rfl
  | char _ ih => rw [joined, ih, Option.map_some]
  | @code c _ _ hc _ ih =>
    have hvalid : c.toNat < 0xd800 ∨ 0xe000 ≤ c.toNat := by
      rcases c.valid with h | h
      · exact .inl h
      · exact .inr h.1
    rw [joined_code hvalid, ih, Option.map_some, Char.ofNat_toNat]
  | @pair c _ _ hc _ ih =>
    have hlt : c.toNat < 0x110000 := by
      rcases c.valid with h | h
      · exact Nat.lt_trans h (by decide)
      · exact h.2
    have hsum := Nat.div_add_mod (c.toNat - 0x10000) 0x400
    rw [joined, if_pos (by omega), if_pos (by omega), ih, Option.map_some]
    have hcode : 0x10000 + (0xd800 + (c.toNat - 0x10000) / 0x400 - 0xd800) * 0x400 +
        (0xdc00 + (c.toNat - 0x10000) % 0x400 - 0xdc00) = c.toNat := by omega
    rw [hcode, Char.ofNat_toNat]

theorem IsString.readString_eq {s : String} {v : List Char} (h : IsString s v) (rest : List Char) :
    readString (v ++ rest) = some (s, rest) := by
  obtain ⟨qs, hquoted, hmeans⟩ := h
  cases hquoted with
  | @mk w hw =>
    have hquote : expect '"' ('"' :: (w ++ '"' :: rest)) = some (w ++ '"' :: rest) := expect_self .nil rfl _
    simp only [readString, stringBody, List.cons_append, List.append_assoc, List.nil_append, hquote, hw.pieces_eq,
      hmeans.joined_eq, Option.bind_eq_bind, Option.bind_some, Option.pure_def, String.ofList_toList]

theorem spelled_escapedChar (c : Char) : ∃ q : Piece, q.Spelled (escapedChar c) ∧
    ∀ {qs : List Piece} {cs : List Char}, Means qs cs → Means (q :: qs) (c :: cs) := by
  have hshort {c e : Char} (h : (e, c) ∈ shortEscapes) : ∃ q : Piece, q.Spelled ['\\', e] ∧
      ∀ {qs : List Piece} {cs : List Char}, Means qs cs → Means (q :: qs) (c :: cs) :=
    ⟨.char c, .short h, .char⟩
  unfold escapedChar
  split
  case h_8 hq hb _ _ _ _ _ =>
    split
    · rename_i hlt
      have hcode := Nat.div_add_mod c.toNat 16
      refine ⟨_, .code (i := 0) (j := 0) (k := c.toNat / 16) (l := c.toNat % 16) ?_ ?_ ?_ ?_, ?_⟩
      · exact ⟨by decide, .inl rfl⟩
      · exact ⟨by decide, .inl rfl⟩
      · exact ⟨by omega, .inl rfl⟩
      · exact ⟨by omega, .inl rfl⟩
      · intro qs cs h
        rw [show ((0 * 16 + 0) * 16 + c.toNat / 16) * 16 + c.toNat % 16 = c.toNat by omega]
        exact .code (by omega) h
    · rename_i hlt
      exact ⟨.char c, .plain (by omega) hq hb, .char⟩
  all_goals exact hshort (by decide)

theorem isString_writeString (s : String) : IsString s (writeString s) := by
  have hbody (cs : List Char) : ∃ qs, Pieced qs (cs.flatMap escapedChar) ∧ Means qs cs := by
    induction cs with
    | nil => exact ⟨[], .nil, .nil⟩
    | cons c cs ih =>
      obtain ⟨qs, hqs, hmeans⟩ := ih
      obtain ⟨q, hq, hc⟩ := spelled_escapedChar c
      exact ⟨q :: qs, .cons hq hqs, hc hmeans⟩
  obtain ⟨qs, hqs, hmeans⟩ := hbody s.toList
  exact ⟨qs, .mk hqs, hmeans⟩

inductive Whole : List Char → Prop
  | zero : Whole ['0']
  | digits {c : Char} {ds : List Char} (hc : c ≠ '0') (hd : Digits (c :: ds)) : Whole (c :: ds)

inductive Fraction : List Char → Prop
  | none : Fraction []
  | point {ds : List Char} (hne : ds ≠ []) (hd : Digits ds) : Fraction ('.' :: ds)

inductive Exponent : List Char → Prop
  | none : Exponent []
  | mark {c : Char} {negative : Bool} {sign ds : List Char} (hc : c = 'e' ∨ c = 'E') (hs : Signed negative sign)
      (hne : ds ≠ []) (hd : Digits ds) : Exponent (c :: (sign ++ ds))

inductive Number : List Char → Prop
  | mk {sign whole fraction exponent : List Char} (hs : sign = [] ∨ sign = ['-']) (hw : Whole whole)
      (hf : Fraction fraction) (he : Exponent exponent) : Number (sign ++ (whole ++ (fraction ++ exponent)))

def Stops (rest : List Char) : Prop := ∀ c ∈ rest.head?, c.isDigit = false ∧ c ∉ ['.', 'e', 'E']

theorem skipDigits_append {ds rest : List Char} (hne : ds ≠ []) (hd : Digits ds)
    (hrest : ∀ c ∈ rest.head?, c.isDigit = false) : skipDigits (ds ++ rest) = some rest := by
  cases ds with
  | nil => exact absurd rfl hne
  | cons c ds =>
    rw [List.cons_append, skipDigits, if_pos (hd c List.mem_cons_self)]
    rw [Decimal.dropWhile_append_stop (fun d h => hd d (List.mem_cons_of_mem c h)) hrest]

theorem skipSign_append {negative : Bool} {sign ds : List Char} (hs : Signed negative sign) (hne : ds ≠ [])
    (hd : Digits ds) (rest : List Char) : skipSign (sign ++ (ds ++ rest)) = ds ++ rest := by
  cases ds with
  | nil => exact absurd rfl hne
  | cons c ds =>
    obtain ⟨hminus, hplus⟩ := Decimal.head_of_digits hd c rfl
    cases hs with
    | plus => rfl
    | minus => rfl
    | none =>
      rw [List.nil_append, List.cons_append, skipSign]
      · rintro cs ⟨⟩
        exact hminus rfl
      · rintro cs ⟨⟩
        exact hplus rfl

theorem skipExponent_append {v rest : List Char} (hv : Exponent v) (hrest : Stops rest) :
    skipExponent (v ++ rest) = some rest := by
  cases hv with
  | none =>
    rw [List.nil_append, skipExponent]
    · rintro cs rfl
      simpa using (hrest 'e' rfl).2
    · rintro cs rfl
      simpa using (hrest 'E' rfl).2
  | @mark c negative sign ds hc hs hne hd =>
    have hdigits := skipDigits_append hne hd (fun c h => (hrest c h).1)
    rcases hc with rfl | rfl
    · rw [List.cons_append, List.append_assoc, skipExponent, skipSign_append hs hne hd, hdigits]
    · rw [List.cons_append, List.append_assoc, skipExponent, skipSign_append hs hne hd, hdigits]

theorem skipFraction_append {v rest : List Char} (hv : Fraction v)
    (hrest : ∀ c ∈ rest.head?, c.isDigit = false ∧ c ≠ '.') : skipFraction (v ++ rest) = some rest := by
  cases hv with
  | none =>
    rw [List.nil_append, skipFraction]
    rintro cs rfl
    exact (hrest '.' rfl).2 rfl
  | point hne hd => exact skipDigits_append hne hd (fun c h => (hrest c h).1)

theorem skipInteger_append {sign v rest : List Char} (hs : sign = [] ∨ sign = ['-']) (hv : Whole v)
    (hrest : ∀ c ∈ rest.head?, c.isDigit = false) : skipInteger (sign ++ (v ++ rest)) = some rest := by
  cases hv with
  | zero =>
    rcases hs with rfl | rfl
    · rfl
    · rfl
  | @digits c ds hc hd =>
    have hdigits := skipDigits_append (List.cons_ne_nil c ds) hd hrest
    have hminus := (Decimal.head_of_digits hd c rfl).1
    rcases hs with rfl | rfl
    · rw [List.nil_append, List.cons_append, skipInteger]
      · exact hdigits
      all_goals simp_all
    · rw [List.singleton_append, List.cons_append, skipInteger]
      · exact hdigits
      all_goals simp_all

theorem Exponent.head_append {v rest : List Char} (hv : Exponent v) (hrest : Stops rest) :
    ∀ c ∈ (v ++ rest).head?, c.isDigit = false ∧ c ≠ '.' := by
  cases hv with
  | none =>
    intro c hc
    have hstop := hrest c hc
    simp_all
  | mark hc =>
    rintro c ⟨⟩
    rcases hc with rfl | rfl
    · decide
    · decide

theorem Fraction.head_append {v rest : List Char} (hv : Fraction v)
    (hrest : ∀ c ∈ rest.head?, c.isDigit = false ∧ c ≠ '.') : ∀ c ∈ (v ++ rest).head?, c.isDigit = false := by
  cases hv with
  | none => exact fun c hc => (hrest c hc).1
  | point =>
    rintro c ⟨⟩
    rfl

theorem skipNumber_append {v rest : List Char} (hv : Number v) (hrest : Stops rest) :
    skipNumber (v ++ rest) = some rest := by
  cases hv with
  | @mk sign whole fraction exponent hs hw hf he =>
    have hexponent := he.head_append hrest
    simp only [List.append_assoc, skipNumber, skipInteger_append hs hw (hf.head_append hexponent),
      skipFraction_append hf hexponent, skipExponent_append he hrest, Option.bind_eq_bind, Option.bind_some]

theorem Number.exists_cons {v : List Char} (hv : Number v) : ∃ c w, v = c :: w ∧ (c = '-' ∨ c.isDigit = true) := by
  cases hv with
  | mk hs hw =>
    rcases hs with rfl | rfl
    · cases hw with
      | zero => exact ⟨_, _, rfl, .inr rfl⟩
      | digits _ hd => exact ⟨_, _, rfl, .inr (hd _ List.mem_cons_self)⟩
    · exact ⟨_, _, rfl, .inl rfl⟩

inductive Padded (P : List Char → Prop) : List Char → Prop
  | mk {u v w : List Char} (hu : Space u) (hv : P v) (hw : Space w) : Padded P (u ++ (v ++ w))

inductive Shape where
  | value
  | element
  | elements
  | members

/-- The texts of JSON values, and of what stands inside their brackets. A half of a pair of codes
may stand alone. -/
inductive Valid : Shape → List Char → Prop
  | word {v : List Char} (h : v ∈ ["true".toList, "false".toList, "null".toList]) : Valid .value v
  | number {v : List Char} (h : Number v) : Valid .value v
  | string {qs : List Piece} {v : List Char} (h : Quoted qs v) : Valid .value v
  | emptyArray {w : List Char} (hw : Space w) : Valid .value ('[' :: (w ++ [']']))
  | array {v : List Char} (h : Valid .elements v) : Valid .value ('[' :: (v ++ [']']))
  | emptyObject {w : List Char} (hw : Space w) : Valid .value ('\x7b' :: (w ++ ['\x7d']))
  | object {v : List Char} (h : Valid .members v) : Valid .value ('\x7b' :: (v ++ ['\x7d']))
  | element {u v w : List Char} (hu : Space u) (hv : Valid .value v) (hw : Space w) : Valid .element (u ++ (v ++ w))
  | lastElement {v : List Char} (hv : Valid .element v) : Valid .elements v
  | nextElement {v vs : List Char} (hv : Valid .element v) (hvs : Valid .elements vs) : Valid .elements (v ++ ',' :: vs)
  | lastMember {qs : List Piece} {k v : List Char} (hk : Padded (Quoted qs) k) (hv : Valid .element v) :
      Valid .members (k ++ ':' :: v)
  | nextMember {qs : List Piece} {k v vs : List Char} (hk : Padded (Quoted qs) k) (hv : Valid .element v)
      (hvs : Valid .members vs) : Valid .members (k ++ ':' :: (v ++ ',' :: vs))

theorem skipScalar_number {v rest : List Char} (hv : Number v) (hrest : Stops rest) :
    skipScalar (v ++ rest) = some rest := by
  obtain ⟨c, w, rfl, hc⟩ := hv.exists_cons
  rw [List.cons_append, skipScalar]
  · exact skipNumber_append hv hrest
  all_goals
    rintro cs ⟨⟩
    revert hc
    decide

theorem skipScalar_word {v : List Char} (hv : v ∈ ["true".toList, "false".toList, "null".toList]) (rest : List Char) :
    skipScalar (v ++ rest) = some rest := by
  simp only [List.mem_cons, List.not_mem_nil, or_false] at hv
  rcases hv with rfl | rfl | rfl <;> rfl

theorem skipScalar_quoted {qs : List Piece} {v : List Char} (hv : Quoted qs v) (rest : List Char) :
    skipScalar (v ++ rest) = some rest := by
  cases hv with
  | mk hw => simp only [skipScalar, List.cons_append, List.append_assoc, List.nil_append, hw.pieces_eq, Option.map_some]

theorem skipKey_append {qs : List Piece} {k : List Char} (hk : Padded (Quoted qs) k) (rest : List Char) :
    skipKey (k ++ ':' :: rest) = some rest := by
  cases hk with
  | @mk u v w hu hv hw =>
    cases hv with
    | @mk v hv =>
      have hquote : expect '"' (u ++ '"' :: (v ++ '"' :: (w ++ ':' :: rest))) = some (v ++ '"' :: (w ++ ':' :: rest)) :=
        expect_self hu rfl _
      simp only [skipKey, List.append_assoc, List.cons_append, List.nil_append, hquote, hv.pieces_eq,
        Option.bind_eq_bind, Option.bind_some]
      exact expect_self hw rfl rest

theorem skipFrom_space {u : List Char} (hu : Space u) (fuel : Nat) (bs : List Bracket) (cs : List Char) :
    skipFrom (fuel + 1) true bs (u ++ cs) = skipFrom (fuel + 1) true bs cs := by
  simp only [skipFrom, skipSpace_append hu]

theorem skipFrom_space_after {w : List Char} (hw : Space w) (fuel : Nat) (b : Bracket) (bs : List Bracket)
    (cs : List Char) : skipFrom (fuel + 1) false (b :: bs) (w ++ cs) = skipFrom (fuel + 1) false (b :: bs) cs := by
  cases b with
  | array => simp only [skipFrom, skipSpace_append hw]
  | object => simp only [skipFrom, skipSpace_append hw]

theorem skipFrom_scalar {c : Char} {cs rest : List Char} (hs : isSpace c = false) (harray : c ≠ '[')
    (hobject : c ≠ '\x7b') (h : skipScalar (c :: cs) = some rest) (fuel : Nat) (bs : List Bracket) :
    skipFrom (fuel + 1) true bs (c :: cs) = skipFrom fuel false bs rest := by
  rw [skipFrom, skipSpace_cons hs]
  split
  · simp_all
  · simp_all
  · rw [h, Option.bind_some]

theorem Number.head_ne {c : Char} (hc : c = '-' ∨ c.isDigit = true) :
    isSpace c = false ∧ c ∉ ['[', ']', '\x7b', '\x7d'] := by
  have hspace : ∀ d ∈ [' ', '\t', '\r', '\n'], ¬ (d = '-' ∨ d.isDigit = true) := by
    simp only [List.mem_cons, List.not_mem_nil, or_false, forall_eq_or_imp, forall_eq]
    decide
  have hbracket : ∀ d ∈ ['[', ']', '\x7b', '\x7d'], ¬ (d = '-' ∨ d.isDigit = true) := by
    simp only [List.mem_cons, List.not_mem_nil, or_false, forall_eq_or_imp, forall_eq]
    decide
  refine ⟨?_, fun h => hbracket c h hc⟩
  by_contra hs
  rw [Bool.not_eq_false, isSpace_eq_true] at hs
  exact hspace c hs hc

theorem Valid.exists_cons {v : List Char} (h : Valid .value v) :
    ∃ c w, v = c :: w ∧ isSpace c = false ∧ c ≠ ']' := by
  cases h with
  | word h =>
    simp only [List.mem_cons, List.not_mem_nil, or_false] at h
    rcases h with rfl | rfl | rfl
    · exact ⟨_, _, rfl, rfl, by decide⟩
    · exact ⟨_, _, rfl, rfl, by decide⟩
    · exact ⟨_, _, rfl, rfl, by decide⟩
  | number h =>
    obtain ⟨c, w, rfl, hc⟩ := h.exists_cons
    obtain ⟨hs, hb⟩ := Number.head_ne hc
    exact ⟨c, w, rfl, hs, by simp_all⟩
  | string h =>
    cases h with
    | mk => exact ⟨_, _, rfl, rfl, by decide⟩
  | emptyArray => exact ⟨_, _, rfl, rfl, by decide⟩
  | array => exact ⟨_, _, rfl, rfl, by decide⟩
  | emptyObject => exact ⟨_, _, rfl, rfl, by decide⟩
  | object => exact ⟨_, _, rfl, rfl, by decide⟩

theorem Valid.expect_element {v : List Char} (h : Valid .element v) (rest : List Char) :
    expect ']' (v ++ rest) = none := by
  cases h with
  | element hu hv =>
    obtain ⟨c, w, rfl, hs, hc⟩ := hv.exists_cons
    rw [List.append_assoc, expect_append hu, List.cons_append, List.cons_append, expect_cons hs, if_neg hc]

theorem Valid.expect_elements {v : List Char} (h : Valid .elements v) (rest : List Char) :
    expect ']' (v ++ rest) = none := by
  cases h with
  | lastElement hv => exact hv.expect_element rest
  | nextElement hv =>
    rw [List.append_assoc]
    exact hv.expect_element _

theorem Quoted.expect_eq_none {qs : List Piece} {v : List Char} (hv : Quoted qs v) {c : Char} (hc : '"' ≠ c)
    (rest : List Char) : expect c (v ++ rest) = none := by
  cases hv with
  | mk => rw [List.cons_append, expect_cons rfl, if_neg hc]

theorem Valid.expect_members {v : List Char} (h : Valid .members v) (rest : List Char) :
    expect '\x7d' (v ++ rest) = none := by
  cases h with
  | lastMember hk | nextMember hk =>
    cases hk with
    | mk hu hv =>
      rw [List.append_assoc, List.append_assoc, expect_append hu, List.append_assoc]
      exact hv.expect_eq_none (by decide) _

theorem stops_cons {c : Char} (hc : c ∈ [' ', '\t', '\r', '\n', ',', ']', '\x7d']) (rest : List Char) :
    Stops (c :: rest) := by
  have hstop : ∀ d ∈ [' ', '\t', '\r', '\n', ',', ']', '\x7d'], d.isDigit = false ∧ d ∉ ['.', 'e', 'E'] := by
    simp only [List.mem_cons, List.not_mem_nil, or_false, forall_eq_or_imp, forall_eq]
    decide
  rintro d ⟨⟩
  exact hstop c hc

theorem stops_space {w : List Char} (hw : Space w) {c : Char} (hc : c ∈ [',', ']', '\x7d']) (rest : List Char) :
    Stops (w ++ c :: rest) := by
  cases w with
  | nil => exact stops_cons (List.mem_append_right [' ', '\t', '\r', '\n'] hc) rest
  | cons b w => exact stops_cons (List.mem_append_left [',', ']', '\x7d'] (hw b List.mem_cons_self)) _

/-- The text is passed over as a whole, in at most as many steps as it has characters. After
elements or members comes the closing bracket, which takes one step more. -/
def Passes : Shape → List Char → Prop
  | .value, v => ∃ n ≤ v.length, ∀ fuel bs rest, Stops rest →
    skipFrom (fuel + n) true bs (v ++ rest) = skipFrom fuel false bs rest
  | .element, v => ∃ n ≤ v.length, ∀ fuel b bs c rest, c ∈ [',', ']', '\x7d'] →
    skipFrom (fuel + n + 1) true (b :: bs) (v ++ c :: rest) = skipFrom (fuel + 1) false (b :: bs) (c :: rest)
  | .elements, v => ∃ n ≤ v.length + 1, ∀ fuel bs rest,
    skipFrom (fuel + n) true (.array :: bs) (v ++ ']' :: rest) = skipFrom fuel false bs rest
  | .members, v => ∃ n ≤ v.length + 1, ∀ fuel bs rest,
    (skipKey (v ++ '\x7d' :: rest)).bind (skipFrom (fuel + n) true (.object :: bs)) = skipFrom fuel false bs rest

theorem passes_scalar {c : Char} {w : List Char} (hs : isSpace c = false) (harray : c ≠ '[') (hobject : c ≠ '\x7b')
    (h : ∀ rest, Stops rest → skipScalar (c :: w ++ rest) = some rest) : Passes .value (c :: w) := by
  refine ⟨1, by simp, ?_⟩
  intro fuel bs rest hrest
  exact skipFrom_scalar hs harray hobject (h rest hrest) fuel bs

theorem Valid.passes {shape : Shape} {v : List Char} (h : Valid shape v) : Passes shape v := by
  induction h with
  | word h =>
    have hskip := skipScalar_word h
    simp only [List.mem_cons, List.not_mem_nil, or_false] at h
    rcases h with rfl | rfl | rfl
    all_goals exact passes_scalar rfl (by decide) (by decide) (fun rest _ => hskip rest)
  | number h =>
    obtain ⟨c, w, rfl, hc⟩ := h.exists_cons
    obtain ⟨hs, hb⟩ := Number.head_ne hc
    simp only [List.mem_cons, not_or] at hb
    exact passes_scalar hs hb.1 hb.2.2.1 (fun rest hrest => skipScalar_number h hrest)
  | string h =>
    have hskip := skipScalar_quoted h
    cases h with
    | mk => exact passes_scalar rfl (by decide) (by decide) (fun rest _ => hskip rest)
  | @emptyArray w hw =>
    refine ⟨1, by simp, ?_⟩
    intro fuel bs rest _
    have hclose : expect ']' (w ++ ']' :: rest) = some rest := expect_self hw rfl rest
    simp [skipFrom, skipSpace_cons, isSpace, hclose]
  | @emptyObject w hw =>
    refine ⟨1, by simp, ?_⟩
    intro fuel bs rest _
    have hclose : expect '\x7d' (w ++ '\x7d' :: rest) = some rest := expect_self hw rfl rest
    simp [skipFrom, skipSpace_cons, isSpace, hclose]
  | @array v h ih =>
    obtain ⟨n, hn, hpass⟩ := ih
    refine ⟨n + 1, by simp; omega, ?_⟩
    intro fuel bs rest _
    have hopen := h.expect_elements (']' :: rest)
    simp [skipFrom, skipSpace_cons, isSpace, hopen, hpass]
  | @object v h ih =>
    obtain ⟨n, hn, hpass⟩ := ih
    refine ⟨n + 1, by simp; omega, ?_⟩
    intro fuel bs rest _
    have hopen := h.expect_members ('\x7d' :: rest)
    simp [skipFrom, skipSpace_cons, isSpace, hopen, hpass]
  | @element u v w hu hv hw ih =>
    obtain ⟨n, hn, hpass⟩ := ih
    refine ⟨n, by simp; omega, ?_⟩
    intro fuel b bs c rest hc
    rw [List.append_assoc, skipFrom_space hu, List.append_assoc, Nat.add_right_comm,
      hpass _ _ _ (stops_space hw hc rest), skipFrom_space_after hw]
  | @lastElement v hv ih =>
    obtain ⟨n, hn, hpass⟩ := ih
    refine ⟨n + 1, by omega, ?_⟩
    intro fuel bs rest
    rw [← Nat.add_assoc, hpass fuel _ _ _ _ (by decide)]
    rfl
  | @nextElement v vs hv hvs ih ihs =>
    obtain ⟨n, hn, hpass⟩ := ih
    obtain ⟨m, hm, hpasses⟩ := ihs
    refine ⟨m + n + 1, by simp; omega, ?_⟩
    intro fuel bs rest
    rw [List.append_assoc, List.cons_append, ← Nat.add_assoc, ← Nat.add_assoc, hpass (fuel + m) _ _ _ _ (by decide)]
    exact hpasses fuel bs rest
  | @lastMember qs k v hk hv ih =>
    obtain ⟨n, hn, hpass⟩ := ih
    refine ⟨n + 1, by simp; omega, ?_⟩
    intro fuel bs rest
    rw [List.append_assoc, List.cons_append, skipKey_append hk, Option.bind_some, ← Nat.add_assoc,
      hpass fuel _ _ _ _ (by decide)]
    rfl
  | @nextMember qs k v vs hk hv hvs ih ihs =>
    obtain ⟨n, hn, hpass⟩ := ih
    obtain ⟨m, hm, hpasses⟩ := ihs
    refine ⟨m + n + 1, by simp; omega, ?_⟩
    intro fuel bs rest
    rw [List.append_assoc, List.cons_append, skipKey_append hk, Option.bind_some, List.append_assoc, List.cons_append,
      ← Nat.add_assoc, ← Nat.add_assoc, hpass (fuel + m) _ _ _ _ (by decide)]
    exact hpasses fuel bs rest

theorem skipValue_append {u v rest : List Char} (hu : Space u) (hv : Valid .value v) (hrest : Stops rest) :
    skipValue (u ++ (v ++ rest)) = some rest := by
  obtain ⟨n, hn, hpass⟩ := hv.passes
  obtain ⟨fuel, hfuel⟩ : ∃ fuel, (u ++ (v ++ rest)).length + 1 = fuel + n := by
    refine ⟨(u ++ (v ++ rest)).length + 1 - n, ?_⟩
    simp only [List.length_append]
    omega
  rw [skipValue, skipFrom_space hu, hfuel, Nat.add_right_comm, hpass _ _ _ hrest]
  rfl

end Phasor.Json
