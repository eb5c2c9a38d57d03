import Mathlib.Data.List.Nodup
import Phasor.Proofs.Memory
import Phasor.Proofs.Slots
import Phasor.Registry

namespace Phasor.Registry

variable {α : Type}

def registerEntry (r : Registry α) (e : RegistryEntry α) : Nat × Registry α :=
  r.register e.name e.convention e.target

def registerAll (r : Registry α) (calls : List (RegistryEntry α)) : Registry α :=
  calls.foldl (fun r e => (r.registerEntry e).2) r

def distinctNames (calls : List (RegistryEntry α)) : List String :=
  (calls.map RegistryEntry.name).eraseDups

def latest? (calls : List (RegistryEntry α)) (name : String) : Option (RegistryEntry α) :=
  calls.reverse.find? (fun e => e.name = name)

theorem getElem?_concat_eq_some_iff {β : Type} {xs : List β} {a b : β} {i : Nat} :
    (xs ++ [a])[i]? = some b ↔ xs[i]? = some b ∨ i = xs.length ∧ a = b := by
  rcases Nat.lt_trichotomy i xs.length with hi | rfl | hi
  · rw [List.getElem?_append_left hi]
    simp [Nat.ne_of_lt hi]
  · simp
  · have hbeyond : (xs ++ [a])[i]? = none := List.getElem?_eq_none (by simpa using Nat.succ_le_of_lt hi)
    have hbeyond' : xs[i]? = none := List.getElem?_eq_none (Nat.le_of_lt hi)
    simp [hbeyond, hbeyond', Nat.ne_of_gt hi]

theorem registerAll_append (r : Registry α) (calls calls' : List (RegistryEntry α)) :
    r.registerAll (calls ++ calls') = (r.registerAll calls).registerAll calls' := List.foldl_append

theorem mem_distinctNames {calls : List (RegistryEntry α)} {name : String} :
    name ∈ distinctNames calls ↔ ∃ e ∈ calls, e.name = name := by
  simp [distinctNames]

theorem distinctNames_concat (calls : List (RegistryEntry α)) (e : RegistryEntry α) :
    distinctNames (calls ++ [e]) =
      if e.name ∈ distinctNames calls then distinctNames calls else distinctNames calls ++ [e.name] := by
  unfold distinctNames
  rw [List.map_append, List.map_singleton, eraseDups_concat]
  simp only [List.mem_eraseDups]

theorem latest?_concat (calls : List (RegistryEntry α)) (e : RegistryEntry α) (name : String) :
    latest? (calls ++ [e]) name = if e.name = name then some e else latest? calls name := by
  unfold latest?
  rw [List.reverse_concat, List.find?_cons]
  by_cases h : e.name = name <;> simp [h]

theorem distinctNames_extends (calls later : List (RegistryEntry α)) :
    distinctNames calls <+: distinctNames (calls ++ later) := by
  unfold distinctNames
  rw [List.map_append, List.eraseDups_append]
  exact List.prefix_append _ _

theorem latest?_append_of_ne {calls later : List (RegistryEntry α)} {name : String} (h : ∀ e ∈ later, e.name ≠ name) :
    latest? (calls ++ later) name = latest? calls name := by
  unfold latest?
  have hnone : later.reverse.find? (fun e => e.name = name) = none := by simpa using h
  rw [List.reverse_append, List.find?_append, hnone, Option.none_or]

theorem latest?_of_last {before after : List (RegistryEntry α)} {e : RegistryEntry α}
    (h : ∀ e' ∈ after, e'.name ≠ e.name) : latest? (before ++ e :: after) e.name = some e := by
  rw [List.append_cons, latest?_append_of_ne h, latest?_concat, if_pos rfl]

structure Reflects (r : Registry α) (calls : List (RegistryEntry α)) : Prop where
  names : r.entries.map RegistryEntry.name = distinctNames calls
  slots : ∀ name i, r.slot? name = some i ↔ (distinctNames calls)[i]? = some name
  latest : ∀ i e, r.get? i = some e → latest? calls e.name = some e

namespace Reflects

variable {r : Registry α} {calls : List (RegistryEntry α)} {e : RegistryEntry α} {name : String} {i : Nat}

theorem empty : (empty : Registry α).Reflects [] := by
  refine ⟨rfl, ?_, ?_⟩
  · intro name i
    simp [distinctNames, slot?, Registry.empty, Dictionary.get?, Dictionary.empty]
  · intro i e h
    simp [get?, Registry.empty] at h

theorem size_eq (h : r.Reflects calls) : r.size = (distinctNames calls).length := by
  rw [← h.names, List.length_map, size]

theorem name_get? (h : r.Reflects calls) (i : Nat) :
    (r.get? i).map RegistryEntry.name = (distinctNames calls)[i]? := by
  rw [← h.names, List.getElem?_map, get?]

theorem slot?_iff_get? (h : r.Reflects calls) : r.slot? name = some i ↔ ∃ e, r.get? i = some e ∧ e.name = name := by
  rw [h.slots, ← h.name_get?, Option.map_eq_some_iff]

theorem slot?_lt_size (h : r.Reflects calls) (hi : r.slot? name = some i) : i < r.size := by
  obtain ⟨e, he, -⟩ := h.slot?_iff_get?.mp hi
  exact (List.getElem?_eq_some_iff.mp he).1

theorem slot?_eq_none_iff (h : r.Reflects calls) : r.slot? name = none ↔ name ∉ distinctNames calls := by
  rw [List.mem_iff_getElem?, not_exists, Option.eq_none_iff_forall_ne_some]
  exact forall_congr' fun i => not_congr (h.slots name i)

theorem get?_of_slot? (h : r.Reflects calls) (hi : r.slot? name = some i) : r.get? i = latest? calls name := by
  obtain ⟨e, he, rfl⟩ := h.slot?_iff_get?.mp hi
  rw [he, h.latest i e he]

theorem register_bound (h : r.Reflects calls) (hi : r.slot? e.name = some i) :
    (r.registerEntry e).1 = i ∧ (r.registerEntry e).2.Reflects (calls ++ [e]) := by
  have hreg : r.registerEntry e = (i, { r with entries := r.entries.set i e }) := by
    simp only [registerEntry, register, hi]
  have hplace := (h.slots e.name i).mp hi
  have hnames : distinctNames (calls ++ [e]) = distinctNames calls := by
    rw [distinctNames_concat, if_pos (List.mem_of_getElem? hplace)]
  rw [hreg]
  refine ⟨rfl, ?_, ?_, ?_⟩
  · rw [hnames, ← h.names, List.map_set]
    rw [h.names]
    obtain ⟨hlt, hget⟩ := List.getElem?_eq_some_iff.mp hplace
    exact (congrArg _ hget.symm).trans (List.set_getElem_self hlt)
  · intro name j
    rw [hnames]
    exact h.slots name j
  · intro j e' he'
    rw [latest?_concat]
    rcases eq_or_ne i j with rfl | hij
    · obtain rfl : e = e' := by
        rw [get?, List.getElem?_set_self (h.slot?_lt_size hi)] at he'
        exact Option.some.inj he'
      rw [if_pos rfl]
    · have hold : r.get? j = some e' := by
        rw [← he', get?, get?, List.getElem?_set_ne hij]
      have hne : e.name ≠ e'.name := by
        intro heq
        have hj : r.slot? e.name = some j := h.slot?_iff_get?.mpr ⟨e', hold, heq.symm⟩
        exact hij (Option.some.inj (hi.symm.trans hj))
      rw [if_neg hne]
      exact h.latest j e' hold

theorem register_fresh (h : r.Reflects calls) (hi : r.slot? e.name = none) :
    (r.registerEntry e).1 = r.size ∧ (r.registerEntry e).2.Reflects (calls ++ [e]) := by
  have hreg : r.registerEntry e = (r.size, ⟨r.entries ++ [e], r.slots.insert e.name r.size⟩) := by
    simp only [registerEntry, register, hi]
  have hnew := h.slot?_eq_none_iff.mp hi
  have hnames : distinctNames (calls ++ [e]) = distinctNames calls ++ [e.name] := by
    rw [distinctNames_concat, if_neg hnew]
  rw [hreg]
  refine ⟨rfl, ?_, ?_, ?_⟩
  · rw [hnames, ← h.names, List.map_append, List.map_singleton]
  · intro name j
    have hold := h.slots name j
    rw [slot?] at hold
    rw [slot?, Dictionary.get?_insert, hnames, getElem?_concat_eq_some_iff, ← h.size_eq, ← hold]
    rcases eq_or_ne name e.name with rfl | hne
    · rw [slot?] at hi
      simp [hi, eq_comm]
    · simp [hne, hne.symm]
  · intro j e' he'
    rw [latest?_concat]
    rcases getElem?_concat_eq_some_iff.mp he' with hold | ⟨-, rfl⟩
    · have hne : e.name ≠ e'.name := by
        intro heq
        have hj : r.slot? e.name = some j := h.slot?_iff_get?.mpr ⟨e', hold, heq.symm⟩
        exact Option.some_ne_none j (hj.symm.trans hi)
      rw [if_neg hne]
      exact h.latest j e' hold
    · rw [if_pos rfl]

theorem registerEntry (h : r.Reflects calls) (e : RegistryEntry α) :
    (r.registerEntry e).2.Reflects (calls ++ [e]) := by
  rcases hi : r.slot? e.name with _ | i
  · exact (h.register_fresh hi).2
  · exact (h.register_bound hi).2

theorem registerAll (h : r.Reflects calls) (later : List (RegistryEntry α)) :
    (r.registerAll later).Reflects (calls ++ later) := by
  induction later generalizing r calls with
  | nil => rwa [List.append_nil]
  | cons e later ih =>
    have hrest := ih (h.registerEntry e)
    rwa [List.append_assoc] at hrest

theorem nodup_names (h : r.Reflects calls) : (r.entries.map RegistryEntry.name).Nodup := by
  rw [h.names, List.nodup_iff_getElem?_ne_getElem?]
  intro i j hij hj heq
  -- the dictionary gives one place for the name, and the name stands at both
  have hname := List.getElem?_eq_getElem hj
  have hi := (h.slots _ i).mpr (heq.trans hname)
  have hj := (h.slots _ j).mpr hname
  exact Nat.ne_of_lt hij (Option.some.inj (hi.symm.trans hj))

theorem slot?_registerAll (h : r.Reflects calls) (hi : r.slot? name = some i) (later : List (RegistryEntry α)) :
    (r.registerAll later).slot? name = some i := by
  rw [(h.registerAll later).slots]
  exact getElem?_some_mono (distinctNames_extends calls later) ((h.slots name i).mp hi)

theorem get?_registerAll_of_ne (h : r.Reflects calls) (hi : r.slot? name = some i) {later : List (RegistryEntry α)}
    (hne : ∀ e ∈ later, e.name ≠ name) : (r.registerAll later).get? i = r.get? i := by
  rw [(h.registerAll later).get?_of_slot? (h.slot?_registerAll hi later), latest?_append_of_ne hne, h.get?_of_slot? hi]

theorem slot?_registerEntry (h : r.Reflects calls) (e : RegistryEntry α) :
    (r.registerEntry e).2.slot? e.name = some (r.registerEntry e).1 := by
  rcases hi : r.slot? e.name with _ | i
  · obtain ⟨hslot, hafter⟩ := h.register_fresh hi
    have hnew := h.slot?_eq_none_iff.mp hi
    rw [hafter.slots, hslot, h.size_eq, distinctNames_concat, if_neg hnew]
    exact List.getElem?_concat_length
  · rw [(h.register_bound hi).1]
    exact h.slot?_registerAll hi [e]

end Reflects

theorem reflects_registerAll (calls : List (RegistryEntry α)) :
    ((empty : Registry α).registerAll calls).Reflects calls :=
  Reflects.empty.registerAll calls

/-- After any registrations, no two slots have one name, and the names are those that were
registered, each with the slot whose entry carries it. That slot is the number of names before the
first registration of the name, every registration of the name gives it back, and it holds what was
last registered under the name, whatever is registered under others. There are as many slots as
names, so 32 bits hold every slot of fewer than `2 ^ 32` names, and the slots of one time keep their
names at all later ones. -/
theorem slots_denote_names_for_good (calls : List (RegistryEntry α)) :
    let r := (empty : Registry α).registerAll calls
    (r.entries.map RegistryEntry.name).Nodup ∧
    (∀ name, (r.slot? name).isSome = true ↔ ∃ e ∈ calls, e.name = name) ∧
    (∀ name i, r.slot? name = some i ↔ ∃ e, r.get? i = some e ∧ e.name = name) ∧
    (∀ before e after, calls = before ++ e :: after →
      let slot := ((empty.registerAll before).registerEntry e).1
      r.slot? e.name = some slot ∧
      ((∀ e' ∈ before, e'.name ≠ e.name) → slot = (distinctNames before).length) ∧
      ((∀ e' ∈ after, e'.name ≠ e.name) → r.get? slot = some e)) ∧
    r.size = (distinctNames calls).length ∧
    (∀ name i, r.slot? name = some i → i < (distinctNames calls).length ∧ ∀ later,
      (r.registerAll later).slot? name = some i ∧
      (∃ e, (r.registerAll later).get? i = some e ∧ e.name = name) ∧
      ((∀ e ∈ later, e.name ≠ name) → (r.registerAll later).get? i = r.get? i)) := by
  intro r
  have h : r.Reflects calls := reflects_registerAll calls
  refine ⟨h.nodup_names, ?_, fun _ _ => h.slot?_iff_get?, ?_, h.size_eq, ?_⟩
  · intro name
    rw [← mem_distinctNames, ← not_iff_not, ← h.slot?_eq_none_iff, Option.not_isSome_iff_eq_none]
  · rintro before e after rfl slot
    have hbefore := reflects_registerAll before
    have hslot : r.slot? e.name = some slot := by
      have hlater := (hbefore.registerEntry e).slot?_registerAll (hbefore.slot?_registerEntry e) after
      rwa [show r = _ from registerAll_append empty before (e :: after)]
    refine ⟨hslot, ?_, ?_⟩
    · intro hfirst
      have hnew := hbefore.slot?_eq_none_iff.mpr (mt mem_distinctNames.mp (by simpa using hfirst))
      exact (hbefore.register_fresh hnew).1.trans hbefore.size_eq
    · intro hlast
      rw [h.get?_of_slot? hslot, latest?_of_last hlast]
  · intro name i hi
    refine ⟨h.size_eq ▸ h.slot?_lt_size hi, ?_⟩
    intro later
    have hlater := h.slot?_registerAll hi later
    exact ⟨hlater, (h.registerAll later).slot?_iff_get?.mp hlater, h.get?_registerAll_of_ne hi⟩

theorem slots_denote_names_for_good_rebound :
    let calls : List (RegistryEntry Nat) :=
      [⟨"f", .bigUnary, 0⟩, ⟨"g", .bigBinary, 1⟩, ⟨"f", .floatUnary, 2⟩, ⟨"h", .bigUnary, 3⟩]
    let r := empty.registerAll calls
    r.slot? "f" = some 0 ∧ r.get? 0 = some ⟨"f", .floatUnary, 2⟩ ∧ r.slot? "h" = some 2 ∧ r.size = 3 ∧
      (r.registerAll [⟨"g", .floatUnary, 4⟩]).get? 0 = some ⟨"f", .floatUnary, 2⟩ := by
  intro calls r
  obtain ⟨-, -, -, hsplit, hsize, hlater⟩ := slots_denote_names_for_good calls
  obtain ⟨hslot, -, hlast⟩ := hsplit [⟨"f", .bigUnary, 0⟩, ⟨"g", .bigBinary, 1⟩] ⟨"f", .floatUnary, 2⟩
    [⟨"h", .bigUnary, 3⟩] rfl
  obtain ⟨hslot', hfirst, -⟩ := hsplit [⟨"f", .bigUnary, 0⟩, ⟨"g", .bigBinary, 1⟩, ⟨"f", .floatUnary, 2⟩]
    ⟨"h", .bigUnary, 3⟩ [] rfl
  have hget : r.get? 0 = some ⟨"f", .floatUnary, 2⟩ := hlast (by simp)
  refine ⟨hslot, hget, hslot'.trans (congrArg some (hfirst (by simp))), hsize, ?_⟩
  rw [← hget]
  exact ((hlater "f" 0 hslot).2 [⟨"g", .floatUnary, 4⟩]).2.2 (by simp)

end Phasor.Registry
