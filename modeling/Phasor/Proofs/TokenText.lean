import Mathlib.Data.List.Forall2
import Phasor.Proofs.JsonText

namespace Phasor

theorem Token.ofKind_kind (t : Token) : ofKind t.kind t.value = t := by
  cases t <;> rfl

namespace Json

open Token (Kind)

inductive Member (name : String) (V : List Char → Prop) : List Char → Prop
  | mk {k v : List Char} (hk : Padded (IsString name) k) (hv : Padded V v) : Member name V (k ++ ':' :: v)

def IsOther (m : List Char) : Prop := ∃ name, name ≠ "kind" ∧ name ≠ "value" ∧ Member name (Valid .value) m

def IsObject (t : Token) (text : List Char) : Prop :=
  ∃ before between after k v ms, (∀ m ∈ before ++ (between ++ after), IsOther m) ∧
    Member "kind" (IsString t.kind.name) k ∧ Member "value" (IsString t.value) v ∧
    (ms = before ++ k :: (between ++ v :: after) ∨ ms = before ++ v :: (between ++ k :: after)) ∧
    text = '\x7b' :: ([','].intercalate ms ++ ['\x7d'])

inductive IsArray : List Token → List Char → Prop
  | empty {u v w : List Char} (hu : Space u) (hv : Space v) (hw : Space w) : IsArray [] (u ++ '[' :: (v ++ ']' :: w))
  | tokens {ts : List Token} {os : List (List Char)} {u w : List Char} (hu : Space u) (hts : ts ≠ [])
      (hos : List.Forall₂ (fun t => Padded (IsObject t)) ts os) (hw : Space w) :
      IsArray ts (u ++ '[' :: ([','].intercalate os ++ ']' :: w))

theorem length_le_intercalate (ms : List (List Char)) : ms.length ≤ ([','].intercalate ms).length + 1 := by
  induction ms with
  | nil => simp
  | cons m ms ih =>
    cases ms with
    | nil => simp
    | cons m' ms =>
      rw [List.intercalate_cons_cons]
      simp only [List.length_cons, List.length_append] at *
      omega

theorem readString_padded {s : String} {v : List Char} (h : Padded (IsString s) v) :
    ∃ w, Space w ∧ ∀ rest, readString (v ++ rest) = some (s, w ++ rest) := by
  cases h with
  | @mk u v w hu hv hw =>
    refine ⟨w, hw, ?_⟩
    intro rest
    rw [List.append_assoc, readString, expect_append hu, List.append_assoc]
    exact hv.readString_eq (w ++ rest)

theorem readKind_eq {kind : Kind} {v : List Char} (h : Padded (IsString kind.name) v) :
    ∃ w, Space w ∧ ∀ rest, readKind (v ++ rest) = some (kind, w ++ rest) := by
  have hopen (rest : List Char) : expect '\x7b' (v ++ rest) = none := by
    cases h with
    | mk hu hv =>
      obtain ⟨qs, hquoted, -⟩ := hv
      rw [List.append_assoc, expect_append hu, List.append_assoc]
      exact hquoted.expect_eq_none (by decide) _
  have hname : Kind.ofName? kind.name = some kind := by
    cases kind <;> rfl
  obtain ⟨w, hw, hread⟩ := readString_padded h
  refine ⟨w, hw, ?_⟩
  intro rest
  simp only [readKind, hopen, readKindName, hread, hname, Option.bind_eq_bind, Option.bind_some, Option.pure_def]

def readMember (name : String) (kind : Option Kind) (value : Option String) (cs : List Char) :
    Option (Option Kind × Option String × List Char) :=
  if name = "kind" then
    if kind.isSome then none else (readKind cs).map (fun (k, rest) => (some k, value, rest))
  else if name = "value" then
    if value.isSome then none else (readString cs).map (fun (v, rest) => (kind, some v, rest))
  else (skipValue cs).map (fun rest => (kind, value, rest))

def afterMember (fuel : Nat) (kind : Option Kind) (value : Option String) (cs : List Char) :
    Option (Token × List Char) :=
  match skipSpace cs with
  | ',' :: rest => readMembers fuel kind value rest
  | '\x7d' :: rest => do return (.ofKind (← kind) (← value), rest)
  | _ => none

inductive Adds : Option Kind → Option String → List Char → Option Kind → Option String → Prop
  | kind {k : Kind} {v : Option String} {m : List Char} (hm : Member "kind" (IsString k.name) m) :
      Adds none v m (some k) v
  | value {k : Option Kind} {s : String} {m : List Char} (hm : Member "value" (IsString s) m) :
      Adds k none m k (some s)
  | other {k : Option Kind} {v : Option String} {m : List Char} (hm : IsOther m) : Adds k v m k v

theorem Member.readMembers_eq {name : String} {V : List Char → Prop} {m : List Char} (h : Member name V m) :
    ∃ v, Padded V v ∧ ∀ fuel kind value rest, readMembers (fuel + 1) kind value (m ++ rest) =
      (readMember name kind value (v ++ rest)).bind (fun r => afterMember fuel r.1 r.2.1 r.2.2) := by
  cases h with
  | @mk k v hk hv =>
    obtain ⟨w, hw, hread⟩ := readString_padded hk
    refine ⟨v, hv, ?_⟩
    intro fuel kind value rest
    have hcolon : expect ':' (w ++ ':' :: (v ++ rest)) = some (v ++ rest) := expect_self hw rfl _
    rw [readMembers, List.append_assoc, hread]
    simp only [Option.bind_eq_bind, Option.bind_some, List.cons_append, hcolon]
    unfold readMember
    split_ifs <;> rfl

theorem Adds.readMembers_eq {k k' : Option Kind} {v v' : Option String} {m : List Char} (h : Adds k v m k' v')
    {c : Char} (hc : c ∈ [',', ']', '\x7d']) (fuel : Nat) (rest : List Char) :
    readMembers (fuel + 1) k v (m ++ c :: rest) = afterMember fuel k' v' (c :: rest) := by
  have hspace {w : List Char} (hw : Space w) (k : Option Kind) (v : Option String) :
      afterMember fuel k v (w ++ c :: rest) = afterMember fuel k v (c :: rest) := by
    rw [afterMember, afterMember, skipSpace_append hw]
  cases h with
  | kind hm =>
    obtain ⟨t, ht, hread⟩ := hm.readMembers_eq
    obtain ⟨w, hw, hkind⟩ := readKind_eq ht
    rw [hread, readMember, hkind]
    exact hspace hw _ _
  | value hm =>
    obtain ⟨t, ht, hread⟩ := hm.readMembers_eq
    obtain ⟨w, hw, hvalue⟩ := readString_padded ht
    rw [hread, readMember, hvalue]
    exact hspace hw _ _
  | other hm =>
    obtain ⟨name, hkind, hvalue, hm⟩ := hm
    obtain ⟨t, ht, hread⟩ := hm.readMembers_eq
    rw [hread, readMember, if_neg hkind, if_neg hvalue]
    cases ht with
    | @mk u t w hu ht hw =>
      have hskip : skipValue (u ++ (t ++ w) ++ c :: rest) = some (w ++ c :: rest) := by
        rw [List.append_assoc, List.append_assoc]
        exact skipValue_append hu ht (stops_space hw hc rest)
      rw [hskip]
      exact hspace hw _ _

inductive Reads : Option Kind → Option String → List (List Char) → Option Kind → Option String → Prop
  | nil {k : Option Kind} {v : Option String} : Reads k v [] k v
  | cons {k k' k'' : Option Kind} {v v' v'' : Option String} {m : List Char} {ms : List (List Char)}
      (h : Adds k v m k' v') (hs : Reads k' v' ms k'' v'') : Reads k v (m :: ms) k'' v''

theorem Reads.others {k k' : Option Kind} {v v' : Option String} {ms others : List (List Char)}
    (hothers : ∀ m ∈ others, IsOther m) (h : Reads k v ms k' v') : Reads k v (others ++ ms) k' v' := by
  induction others with
  | nil => exact h
  | cons m others ih =>
    rw [List.forall_mem_cons] at hothers
    exact .cons (.other hothers.1) (ih hothers.2)

theorem Reads.readMembers_eq {k k' : Option Kind} {v v' : Option String} {ms : List (List Char)}
    (h : Reads k v ms k' v') (hms : ms ≠ []) {fuel : Nat} (hfuel : ms.length ≤ fuel) (rest : List Char) :
    readMembers fuel k v ([','].intercalate ms ++ '\x7d' :: rest) = do return (.ofKind (← k') (← v'), rest) := by
  induction h generalizing fuel with
  | nil => exact absurd rfl hms
  | @cons k k₁ k₂ v v₁ v₂ m ms h hs ih =>
    obtain ⟨fuel, rfl⟩ := Nat.exists_eq_add_one_of_ne_zero (Nat.ne_of_gt (Nat.lt_of_lt_of_le (by simp) hfuel))
    cases ms with
    | nil =>
      rw [List.intercalate_singleton, h.readMembers_eq (by decide)]
      cases hs
      rfl
    | cons m' ms =>
      rw [List.intercalate_cons_cons, List.append_assoc, List.append_assoc, List.singleton_append,
        h.readMembers_eq (by decide)]
      exact ih (List.cons_ne_nil _ _) (by simpa using hfuel)

theorem IsObject.reads {t : Token} {text : List Char} (h : IsObject t text) :
    ∃ ms, Reads none none ms (some t.kind) (some t.value) ∧ ms ≠ [] ∧
      text = '\x7b' :: ([','].intercalate ms ++ ['\x7d']) := by
  obtain ⟨before, between, after, k, v, ms, hothers, hk, hv, horder, rfl⟩ := h
  simp only [List.forall_mem_append] at hothers
  obtain ⟨hbefore, hbetween, hafter⟩ := hothers
  have hend : Reads (some t.kind) (some t.value) after (some t.kind) (some t.value) := by
    simpa using Reads.nil.others hafter
  refine ⟨ms, ?_, ?_, rfl⟩
  · rcases horder with rfl | rfl
    · exact .others hbefore (.cons (.kind hk) (.others hbetween (.cons (.value hv) hend)))
    · exact .others hbefore (.cons (.value hv) (.others hbetween (.cons (.kind hk) hend)))
  · rcases horder with rfl | rfl
    · simp
    · simp

theorem readToken_eq {t : Token} {o : List Char} (h : Padded (IsObject t) o) :
    ∃ w, Space w ∧ ∀ rest, readToken (o ++ rest) = some (t, w ++ rest) := by
  cases h with
  | @mk u o w hu ho hw =>
    refine ⟨w, hw, ?_⟩
    intro rest
    obtain ⟨ms, hreads, hms, rfl⟩ := ho.reads
    have hlength := length_le_intercalate ms
    have hmembers : readMembers (([','].intercalate ms ++ '\x7d' :: (w ++ rest)).length + 1) none none
        ([','].intercalate ms ++ '\x7d' :: (w ++ rest)) = some (t, w ++ rest) := by
      rw [hreads.readMembers_eq hms]
      · simp [t.ofKind_kind]
      · simp only [List.length_append]
        omega
    rw [readToken, List.append_assoc, skipSpace_append hu, List.append_assoc, List.cons_append, List.append_assoc,
      List.singleton_append, skipSpace_cons rfl]
    exact hmembers

theorem expect_object {t : Token} {o : List Char} (h : Padded (IsObject t) o) (rest : List Char) :
    expect ']' (o ++ rest) = none := by
  cases h with
  | mk hu ho =>
    obtain ⟨ms, -, -, rfl⟩ := ho.reads
    rw [List.append_assoc, expect_append hu, List.cons_append, List.cons_append, expect_cons rfl, if_neg (by decide)]

theorem readElements_eq {ts : List Token} {os : List (List Char)}
    (h : List.Forall₂ (fun t => Padded (IsObject t)) ts os) (hts : ts ≠ []) {fuel : Nat} (hfuel : os.length ≤ fuel)
    (rest : List Char) :
    readElements fuel ([','].intercalate os ++ ']' :: rest) = some (ts, rest) := by
  induction h generalizing fuel with
  | nil => exact absurd rfl hts
  | @cons t o ts os ho hos ih =>
    obtain ⟨fuel, rfl⟩ := Nat.exists_eq_add_one_of_ne_zero (Nat.ne_of_gt (Nat.lt_of_lt_of_le (by simp) hfuel))
    obtain ⟨w, hw, hread⟩ := readToken_eq ho
    cases hos with
    | nil =>
      simp only [List.intercalate_singleton, readElements, hread, Option.bind_eq_bind, Option.bind_some,
        skipSpace_append hw]
      rfl
    | @cons t' o' ts os ho' hos =>
      have hmore := ih (List.cons_ne_nil _ _) (Nat.le_of_succ_le_succ hfuel)
      rw [List.intercalate_cons_cons, List.append_assoc, List.append_assoc, List.singleton_append]
      simp only [readElements, hread, Option.bind_eq_bind, Option.bind_some, skipSpace_append hw]
      rw [skipSpace_cons rfl]
      simp only [hmore, Option.bind_some, Option.pure_def]

theorem IsArray.readTokens_eq {ts : List Token} {text : String} (h : IsArray ts text.toList) :
    readTokens text = some ts := by
  have hend {w : List Char} (hw : Space w) : (skipSpace w).isEmpty = true := by
    rw [← List.append_nil w, skipSpace_append hw]
    rfl
  unfold readTokens
  generalize text.toList = cs at h
  cases h with
  | @empty u v w hu hv hw =>
    have hclose : expect ']' (v ++ ']' :: w) = some w := expect_self hv rfl w
    rw [expect_self hu rfl]
    simp only [Option.bind_eq_bind, Option.bind_some, hclose, hend hw, ↓reduceIte]
  | @tokens _ os u w hu hts hos hw =>
    have hopen : expect ']' ([','].intercalate os ++ ']' :: w) = none := by
      cases hos with
      | nil => exact absurd rfl hts
      | @cons t o ts os ho hos =>
        cases hos with
        | nil =>
          rw [List.intercalate_singleton]
          exact expect_object ho _
        | cons =>
          rw [List.intercalate_cons_cons, List.append_assoc, List.append_assoc]
          exact expect_object ho _
    have hlength := length_le_intercalate os
    have hread : readElements (([','].intercalate os ++ ']' :: w).length + 1) ([','].intercalate os ++ ']' :: w) =
        some (ts, w) := by
      apply readElements_eq hos hts
      simp only [List.length_append]
      omega
    rw [expect_self hu rfl]
    simp only [Option.bind_eq_bind, Option.bind_some, hopen, hread, hend hw, ↓reduceIte]

theorem Padded.of {P : List Char → Prop} {v : List Char} (hv : P v) : Padded P v := by
  simpa using Padded.mk Space.nil hv Space.nil

theorem toList_writeToken (t : Token) : (writeToken t).toList =
    '\x7b' :: ([','].intercalate [writeString "kind" ++ ':' :: writeString t.kind.name,
      writeString "value" ++ ':' :: writeString t.value] ++ ['\x7d']) := by
  have hkind : "\x7b\"kind\":".toList = '\x7b' :: (writeString "kind" ++ [':']) := rfl
  have hvalue : ",\"value\":".toList = ',' :: (writeString "value" ++ [':']) := rfl
  unfold writeToken
  rw [String.toList_ofList, hkind, hvalue]
  -- the two names are texts that simp would take apart
  generalize writeString "kind" = k
  generalize writeString "value" = v
  simp [List.intercalate_cons_cons]

theorem isObject_writeToken (t : Token) : IsObject t (writeToken t).toList := by
  have hmember (name s : String) : Member name (IsString s) (writeString name ++ ':' :: writeString s) :=
    .mk (.of (isString_writeString name)) (.of (isString_writeString s))
  exact ⟨[], [], [], _, _, _, by simp, hmember "kind" t.kind.name, hmember "value" t.value, .inl rfl,
    toList_writeToken t⟩

theorem isArray_writeToken (ts : List Token) :
    IsArray ts ("[" ++ ",".intercalate (ts.map writeToken) ++ "]").toList := by
  have htext : ("[" ++ ",".intercalate (ts.map writeToken) ++ "]").toList =
      [] ++ '[' :: ([','].intercalate (ts.map (fun t => (writeToken t).toList)) ++ ']' :: []) := by
    simp [String.toList_intercalate, Function.comp_def]
  rw [htext]
  cases ts with
  | nil => exact .empty .nil .nil .nil
  | cons t ts =>
    refine .tokens .nil (List.cons_ne_nil t ts) ?_ .nil
    rw [List.forall₂_map_right_iff, List.forall₂_same]
    exact fun t _ => .of (isObject_writeToken t)

/-- Reading undoes writing, and more: an array whose objects give the kinds and values of tokens, in
any spelling and order, with any further members and space, is read as those tokens. -/
theorem tokens_are_read_back (ts : List Token) :
    readTokens ("[" ++ ",".intercalate (ts.map writeToken) ++ "]") = some ts ∧
    (∀ s, IsString s (writeString s)) ∧ (∀ t, IsObject t (writeToken t).toList) ∧
    ∀ text : String, IsArray ts text.toList → readTokens text = some ts :=
  ⟨(isArray_writeToken ts).readTokens_eq, isString_writeString, isObject_writeToken, fun _ h => h.readTokens_eq⟩

theorem tokens_are_read_back_swapped :
    readTokens " [\x7b\"x\":[1,\x7b\x7d] ,\"value\":\"\\ud83D\\ude00\",\"kind\":\"Call\"\x7d]" = some [.call "😀"] := by
  have hdigit : Whole ['1'] := .digits (by decide) (by simp [Decimal.Digits])
  have hone : Valid .element ['1'] :=
    .element (u := []) (w := []) .nil (.number (.mk (.inl rfl) hdigit .none .none)) .nil
  have hbraces : Valid .elements ['\x7b', '\x7d'] :=
    .lastElement (.element (u := []) (w := []) .nil (.emptyObject (w := []) .nil) .nil)
  have hx : Member "x" (Valid .value) (writeString "x" ++ ':' :: "[1,\x7b\x7d] ".toList) :=
    .mk (.of (isString_writeString "x"))
      (.mk (u := []) (v := "[1,\x7b\x7d]".toList) (w := [' ']) .nil (.array (.nextElement hone hbraces))
        (by simp [Space]))
  have hhigh : Piece.Spelled (.code 0xd83d) "\\ud83D".toList :=
    .code (i := 13) (j := 8) (k := 3) (l := 13) ⟨by decide, by decide⟩ ⟨by decide, by decide⟩ ⟨by decide, by decide⟩
      ⟨by decide, by decide⟩
  have hlow : Piece.Spelled (.code 0xde00) "\\ude00".toList :=
    .code (i := 13) (j := 14) (k := 0) (l := 0) ⟨by decide, by decide⟩ ⟨by decide, by decide⟩ ⟨by decide, by decide⟩
      ⟨by decide, by decide⟩
  have hface : IsString "😀" "\"\\ud83D\\ude00\"".toList :=
    ⟨_, .mk (.cons hhigh (.cons hlow .nil)), .pair (c := '😀') (by decide) .nil⟩
  have hvalue : Member "value" (IsString "😀") (writeString "value" ++ ':' :: "\"\\ud83D\\ude00\"".toList) :=
    .mk (.of (isString_writeString "value")) (.of hface)
  have hkind : Member "kind" (IsString "Call") (writeString "kind" ++ ':' :: writeString "Call") :=
    .mk (.of (isString_writeString "kind")) (.of (isString_writeString "Call"))
  have hobject : IsObject (.call "😀")
      "\x7b\"x\":[1,\x7b\x7d] ,\"value\":\"\\ud83D\\ude00\",\"kind\":\"Call\"\x7d".toList := by
    refine ⟨[writeString "x" ++ ':' :: "[1,\x7b\x7d] ".toList], [], [], _, _, _, ?_, hkind, hvalue, .inr rfl, rfl⟩
    rw [List.append_nil, List.append_nil, List.forall_mem_singleton]
    exact ⟨"x", by decide, by decide, hx⟩
  have htext : " [\x7b\"x\":[1,\x7b\x7d] ,\"value\":\"\\ud83D\\ude00\",\"kind\":\"Call\"\x7d]".toList =
      [' '] ++ '[' :: ([','].intercalate
        ["\x7b\"x\":[1,\x7b\x7d] ,\"value\":\"\\ud83D\\ude00\",\"kind\":\"Call\"\x7d".toList] ++ [']']) := rfl
  apply (tokens_are_read_back [.call "😀"]).2.2.2
  rw [htext]
  exact .tokens (by simp [Space]) (List.cons_ne_nil _ _) (.cons (.of hobject) .nil) .nil

end Json

end Phasor
