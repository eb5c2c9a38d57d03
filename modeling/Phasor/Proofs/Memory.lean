import Phasor.Code.Machine

namespace Phasor

namespace Dictionary

variable {κ α : Type} [DecidableEq κ]

theorem lookup_map_eq (es : List (κ × α)) (k : κ) (a : α) (j : κ) :
    (es.map (fun e => if e.1 = k then (k, a) else e)).lookup j =
      if j = k then (es.lookup j).map (fun _ => a) else es.lookup j := by
  induction es with
  | nil => simp
  | cons e es ih =>
    obtain ⟨i, b⟩ := e
    by_cases hi : i = k
    · subst hi
      by_cases hj : j = i
      · simp [hj]
      · simp [hj, beq_false_of_ne hj, ih, List.lookup_cons]
    · by_cases hj : j = i
      · simp [hj, hi]
      · simp [hi, beq_false_of_ne hj, ih, List.lookup_cons]

theorem get?_insert (d : Dictionary κ α) (k : κ) (a : α) (j : κ) :
    (d.insert k a).get? j = if j = k then some a else d.get? j := by
  unfold insert contains
  rcases hk : d.get? k with _ | b
  · simp only [Option.isSome_none, Bool.false_eq_true, ↓reduceIte, get?, List.lookup_append]
    by_cases hj : j = k
    · subst hj
      rw [get?] at hk
      simp [hk]
    · simp [hj, beq_false_of_ne hj, List.lookup_cons]
  · simp only [Option.isSome_some, ↓reduceIte, get?, lookup_map_eq]
    by_cases hj : j = k
    · subst hj
      rw [get?] at hk
      simp [hk]
    · simp [hj]

end Dictionary

theorem Arena.store?_eq {α : Type} {a : Arena α} (h : a.cursor < a.slots.length) (v : α) :
    a.store? v = some (a.cursor, { a with
      slots := a.slots.set a.cursor v
      cursor := if a.cursor + 1 = a.slots.length then 0 else a.cursor + 1 }) := by
  have hne : a.slots.isEmpty = false := by
    rw [List.isEmpty_eq_false_iff]
    intro he
    simp [he] at h
  simp only [store?, alloc?, hne, Bool.false_eq_true, ↓reduceIte, Option.map_some]
  rfl

def Place.Outside (ids : List Nat) : Place → Prop
  | argument => True
  | slot owner _ | pinned owner _ => owner ∉ ids

theorem Place.Outside.mono {ids ids' : List Nat} {l : Place} (h : l.Outside ids') (hs : ids ⊆ ids') :
    l.Outside ids := by
  cases l with
  | argument => trivial
  | slot owner i => exact fun hm => h (hs hm)
  | pinned owner i => exact fun hm => h (hs hm)

namespace Memory

variable {p : Precision}

structure AgreesOff (ids : List Nat) (m m' : Memory p) : Prop where
  argument : m'.argument = m.argument
  arenas : ∀ id, id ∉ ids → m'.arenas.get? id = m.arenas.get? id

theorem AgreesOff.refl (ids : List Nat) (m : Memory p) : AgreesOff ids m m :=
  ⟨rfl, fun _ _ => rfl⟩

theorem AgreesOff.trans {ids : List Nat} {m m' m'' : Memory p} (h : AgreesOff ids m m')
    (h' : AgreesOff ids m' m'') : AgreesOff ids m m'' :=
  ⟨h'.argument.trans h.argument, fun id hid => (h'.arenas id hid).trans (h.arenas id hid)⟩

theorem AgreesOff.mono {ids ids' : List Nat} {m m' : Memory p} (h : AgreesOff ids m m')
    (hs : ids ⊆ ids') : AgreesOff ids' m m' :=
  ⟨h.argument, fun id hid => h.arenas id (fun hm => hid (hs hm))⟩

theorem AgreesOff.read? {ids : List Nat} {m m' : Memory p} (h : AgreesOff ids m m') {l : Place}
    (hl : l.Outside ids) : m'.read? l = m.read? l := by
  cases l with
  | argument => simp [Memory.read?, h.argument]
  | slot owner i => simp only [Memory.read?, h.arenas owner hl]
  | pinned owner i => simp only [Memory.read?, h.arenas owner hl]

theorem store?_eq {m : Memory p} {owner : Nat} {a : Arena p.Value} (ha : m.arenas.get? owner = some a)
    (hc : a.cursor < a.slots.length) (v : p.Value) :
    ∃ m', m.store? owner v = some (.slot owner a.cursor, m') ∧ m.AgreesOff [owner] m' ∧
      m'.arenas.get? owner = some { a with
        slots := a.slots.set a.cursor v
        cursor := if a.cursor + 1 = a.slots.length then 0 else a.cursor + 1 } := by
  have hs : m.store? owner v = some (.slot owner a.cursor, { m with arenas := m.arenas.insert owner { a with
      slots := a.slots.set a.cursor v
      cursor := if a.cursor + 1 = a.slots.length then 0 else a.cursor + 1 } }) := by
    unfold store?
    simp only [ha, Arena.store?_eq hc, Option.bind_eq_bind, Option.bind_some]
    rfl
  refine ⟨_, hs, ⟨rfl, ?_⟩, ?_⟩
  · intro id hid
    have hne : id ≠ owner := by simpa using hid
    simp [Dictionary.get?_insert, hne]
  · simp [Dictionary.get?_insert]

end Memory

end Phasor
