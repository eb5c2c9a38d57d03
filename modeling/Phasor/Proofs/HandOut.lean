import Mathlib.Data.List.Basic
import Phasor.Proofs.Memory

namespace Phasor

namespace Routine

variable {p : Precision}

inductive Computes (p : Precision) : Routine → List p.Value → p.Value → Prop
  | binary (op : BinaryOp) (z w : p.Value) : Computes p (.binary op) [z, w] (p.binary op z w)
  | unary (op : UnaryOp) (z : p.Value) : Computes p (.unary op) [z] (p.unary op z)
  | wrap (z : p.Value) : Computes p .wrap [z] z
  | copy (z : p.Value) : Computes p .copy [z] z

theorem exists_result? {r : Routine} {zs : List p.Value} (h : zs.length = r.arity) :
    ∃ v, r.result? p zs = some v ∧ r.Computes p zs v := by
  cases r with
  | binary op =>
    obtain ⟨z, w, rfl⟩ := List.length_eq_two.mp h
    exact ⟨_, rfl, .binary op z w⟩
  | unary op =>
    obtain ⟨z, rfl⟩ := List.length_eq_one_iff.mp h
    exact ⟨_, rfl, .unary op z⟩
  | wrap =>
    obtain ⟨z, rfl⟩ := List.length_eq_one_iff.mp h
    exact ⟨_, rfl, .wrap z⟩
  | copy =>
    obtain ⟨z, rfl⟩ := List.length_eq_one_iff.mp h
    exact ⟨_, rfl, .copy z⟩

end Routine

namespace HandOut

variable {p : Precision}

inductive Source (p : Precision) where
  | outside (v : p.Value)
  | pinned (i : Nat)
  | handle (k : Nat)

inductive Action (p : Precision) where
  | call (r : Routine) (sources : List (Source p))
  | alloc
  | store (v : p.Value)
  | reset
  | pin (v : p.Value)

structure State (p : Precision) where
  arena : Arena p.Value
  issued : List Nat := []

def start (p : Precision) (n : Nat) : State p := { arena := Arena.withCapacity n }

def State.read? (s : State p) : Source p → Option p.Value
  | .outside v => some v
  | .pinned i => s.arena.pinned[i]?
  | .handle k => s.issued[k]?.bind (s.arena.slots[·]?)

def State.issue (s : State p) (h : Nat × Arena p.Value) : State p := ⟨h.2, s.issued ++ [h.1]⟩

def step? (s : State p) : Action p → Option (State p)
  | .call r sources => ((sources.mapM s.read?).bind (r.call? p · s.arena)).map s.issue
  | .alloc => s.arena.alloc?.map s.issue
  | .store v => (s.arena.store? v).map s.issue
  | .reset => some { s with arena := s.arena.reset }
  | .pin v => some { s with arena := s.arena.pin v }

def run? (s : State p) (actions : List (Action p)) : Option (State p) :=
  actions.foldlM step? s

section Allowed

def Source.Known (issued pinned : Nat) : Source p → Prop
  | .outside _ => True
  | .pinned i => i < pinned
  | .handle k => k < issued

def Action.Allowed (issued pinned : Nat) : Action p → Prop
  | .call r sources => sources.length = r.arity ∧ ∀ z ∈ sources, z.Known issued pinned
  | _ => True

def Action.handsOut : Action p → Bool
  | .call _ _ | .alloc | .store _ => true
  | .reset | .pin _ => false

def Action.pins : Action p → Bool
  | .pin _ => true
  | _ => false

def Allowed : (issued pinned : Nat) → List (Action p) → Prop
  | _, _, [] => True
  | issued, pinned, a :: rest =>
    a.Allowed issued pinned ∧ Allowed (issued + a.handsOut.toNat) (pinned + a.pins.toNat) rest

end Allowed

section Step

structure Sized (n : Nat) (s : State p) : Prop where
  capacity : s.arena.capacity = n
  cursor : s.arena.cursor < n
  issued : ∀ i ∈ s.issued, i < n

theorem sized_start (p : Precision) {n : Nat} (hn : 1 ≤ n) : Sized n (start p n) where
  capacity := List.length_replicate
  cursor := hn
  issued := by
    intro i hi
    cases hi

structure HandsOut (s t : State p) : Prop where
  issued : t.issued = s.issued ++ [s.arena.cursor]
  cursor : t.arena.cursor = (s.arena.cursor + 1) % s.arena.capacity
  capacity : t.arena.capacity = s.arena.capacity
  others : ∀ j, j ≠ s.arena.cursor → t.arena.slots[j]? = s.arena.slots[j]?
  pinned : t.arena.pinned = s.arena.pinned

/-- The routine on the operands as they are in `s` gives what the new slot holds in `t`, and code
that calls the routine with these operands and the arena in memory leaves the arena of `t` there. -/
structure Calls (s : State p) (r : Routine) (sources : List (Source p)) (t : State p)
    (zs : List p.Value) (v : p.Value) : Prop where
  operands : sources.mapM s.read? = some zs
  computes : r.Computes p zs v
  holds : t.read? (.handle s.issued.length) = some v
  code : ∀ (m : Memory p) (owner : Nat) (ws : List Word), m.arenas.get? owner = some s.arena →
    Machine.operands p m ws = some zs → Machine.callRoutine? m r (ws ++ [.arena owner]) =
      some (.slot owner s.arena.cursor, { m with arenas := m.arenas.insert owner t.arena })

def Effect (s : State p) : Action p → State p → Prop
  | .call r sources, t => HandsOut s t ∧ ∃ zs v, Calls s r sources t zs v
  | .alloc, t => HandsOut s t ∧ t.arena.slots = s.arena.slots
  | .store v, t => HandsOut s t ∧ t.read? (.handle s.issued.length) = some v
  | .reset, t => t = { s with arena := { s.arena with cursor := 0 } }
  | .pin v, t => t = { s with arena := { s.arena with pinned := s.arena.pinned ++ [v] } }

variable {n : Nat} {s : State p}

theorem Sized.cursor_lt (h : Sized n s) : s.arena.cursor < s.arena.slots.length :=
  Nat.lt_of_lt_of_eq h.cursor h.capacity.symm

theorem Sized.next_cursor (h : Sized n s) :
    (if s.arena.cursor + 1 = s.arena.slots.length then 0 else s.arena.cursor + 1) =
      (s.arena.cursor + 1) % s.arena.capacity := by
  have hlt := h.cursor_lt
  rw [Arena.capacity]
  split
  · rename_i heq
    rw [heq, Nat.mod_self]
  · rw [Nat.mod_eq_of_lt (by omega)]

theorem Sized.exists_store? (h : Sized n s) (v : p.Value) : ∃ a,
    s.arena.store? v = some (s.arena.cursor, a) ∧ HandsOut s (s.issue (s.arena.cursor, a)) ∧
    (s.issue (s.arena.cursor, a)).read? (.handle s.issued.length) = some v := by
  have hlt := h.cursor_lt
  refine ⟨_, Arena.store?_eq hlt v, ⟨rfl, h.next_cursor, List.length_set, ?_, rfl⟩, ?_⟩
  · intro j hj
    exact List.getElem?_set_ne hj.symm
  · rw [State.read?, State.issue, List.getElem?_concat_length]
    exact List.getElem?_set_self hlt

theorem Sized.exists_alloc? (h : Sized n s) : ∃ a, s.arena.alloc? = some (s.arena.cursor, a) ∧
    HandsOut s (s.issue (s.arena.cursor, a)) ∧ a.slots = s.arena.slots := by
  have hne : s.arena.slots.isEmpty = false := by
    rw [List.isEmpty_eq_false_iff]
    exact List.ne_nil_of_length_pos (Nat.zero_lt_of_lt h.cursor_lt)
  have halloc : s.arena.alloc? = some (s.arena.cursor, { s.arena with
      cursor := if s.arena.cursor + 1 = s.arena.slots.length then 0 else s.arena.cursor + 1 }) := by
    rw [Arena.alloc?, hne, if_neg Bool.false_ne_true]
    rfl
  exact ⟨_, halloc, ⟨rfl, h.next_cursor, rfl, fun _ _ => rfl, rfl⟩, rfl⟩

theorem Sized.exists_read? (h : Sized n s) {z : Source p} (hz : z.Known s.issued.length s.arena.pinned.length) :
    ∃ v, s.read? z = some v := by
  cases z with
  | outside v => exact ⟨v, rfl⟩
  | pinned i => exact ⟨_, List.getElem?_eq_getElem hz⟩
  | handle k =>
    have hslot : s.issued.get ⟨k, hz⟩ < s.arena.slots.length :=
      Nat.lt_of_lt_of_eq (h.issued _ (List.get_mem _ _)) h.capacity.symm
    refine ⟨s.arena.slots.get ⟨_, hslot⟩, ?_⟩
    rw [State.read?, List.getElem?_eq_getElem hz]
    exact List.getElem?_eq_getElem hslot

theorem Sized.exists_operands (h : Sized n s) {sources : List (Source p)}
    (hs : ∀ z ∈ sources, z.Known s.issued.length s.arena.pinned.length) :
    ∃ zs, sources.mapM s.read? = some zs ∧ zs.length = sources.length := by
  induction sources with
  | nil => exact ⟨[], rfl, rfl⟩
  | cons z rest ih =>
    obtain ⟨v, hv⟩ := h.exists_read? (hs z List.mem_cons_self)
    obtain ⟨vs, hvs, hlen⟩ := ih (fun z hz => hs z (List.mem_cons_of_mem _ hz))
    exact ⟨v :: vs, by simp [List.mapM_cons, hv, hvs], by simp [hlen]⟩

theorem callRoutine?_eq {m : Memory p} {owner : Nat} {a a' : Arena p.Value} {r : Routine} {ws : List Word}
    {zs : List p.Value} {v : p.Value} {i : Nat} (ha : m.arenas.get? owner = some a)
    (hzs : Machine.operands p m ws = some zs) (hv : r.result? p zs = some v) (hstore : a.store? v = some (i, a')) :
    Machine.callRoutine? m r (ws ++ [.arena owner]) =
      some (.slot owner i, { m with arenas := m.arenas.insert owner a' }) := by
  simp [Machine.callRoutine?, hzs, hv, Memory.store?, ha, hstore]

theorem Sized.exists_step? (h : Sized n s) {a : Action p} (ha : a.Allowed s.issued.length s.arena.pinned.length) :
    ∃ t, step? s a = some t ∧ Effect s a t := by
  cases a with
  | call r sources =>
    obtain ⟨hlen, hknown⟩ := ha
    obtain ⟨zs, hzs, hlen'⟩ := h.exists_operands hknown
    obtain ⟨v, hv, hcomputes⟩ := Routine.exists_result? (hlen'.trans hlen)
    obtain ⟨arena, hstore, hout, hslot⟩ := h.exists_store? v
    refine ⟨_, ?_, hout, zs, v, hzs, hcomputes, hslot, ?_⟩
    · rw [step?, hzs, Option.bind_some, Routine.call?, hv, Option.bind_some, hstore, Option.map_some]
    · intro m owner ws hm hws
      exact callRoutine?_eq hm hws hv hstore
  | alloc =>
    obtain ⟨arena, halloc, hout, hslots⟩ := h.exists_alloc?
    exact ⟨_, by rw [step?, halloc, Option.map_some], hout, hslots⟩
  | store v =>
    obtain ⟨arena, hstore, hout, hslot⟩ := h.exists_store? v
    exact ⟨_, by rw [step?, hstore, Option.map_some], hout, hslot⟩
  | reset => exact ⟨_, rfl, rfl⟩
  | pin v => exact ⟨_, rfl, rfl⟩

end Step

section Effect

variable {n : Nat} {s t : State p} {a : Action p}

theorem HandsOut.sized (hout : HandsOut s t) (h : Sized n s) : Sized n t where
  capacity := hout.capacity.trans h.capacity
  cursor := by
    rw [hout.cursor, h.capacity]
    exact Nat.mod_lt _ (Nat.zero_lt_of_lt h.cursor)
  issued := by
    intro i hi
    rw [hout.issued, List.mem_append, List.mem_singleton] at hi
    rcases hi with hi | rfl
    · exact h.issued i hi
    · exact h.cursor

theorem Effect.handsOut (he : Effect s a t) (ha : a.handsOut = true) : HandsOut s t := by
  cases a with
  | call r sources => exact he.1
  | alloc => exact he.1
  | store v => exact he.1
  | reset => cases ha
  | pin v => cases ha

theorem Effect.eq_of_not_handsOut (he : Effect s a t) (ha : a.handsOut = false) :
    t.issued = s.issued ∧ t.arena.slots = s.arena.slots := by
  cases a with
  | call r sources => cases ha
  | alloc => cases ha
  | store v => cases ha
  | reset =>
    cases he
    exact ⟨rfl, rfl⟩
  | pin v =>
    cases he
    exact ⟨rfl, rfl⟩

theorem Effect.sized (he : Effect s a t) (h : Sized n s) : Sized n t := by
  cases a with
  | call r sources => exact he.1.sized h
  | alloc => exact he.1.sized h
  | store v => exact he.1.sized h
  | reset =>
    cases he
    exact ⟨h.capacity, Nat.zero_lt_of_lt h.cursor, h.issued⟩
  | pin v =>
    cases he
    exact ⟨h.capacity, h.cursor, h.issued⟩

theorem Effect.pinned_eq (he : Effect s a t) :
    ∃ vs, t.arena.pinned = s.arena.pinned ++ vs ∧ vs.length = a.pins.toNat := by
  cases a with
  | call r sources => exact ⟨[], by rw [he.1.pinned, List.append_nil], rfl⟩
  | alloc => exact ⟨[], by rw [he.1.pinned, List.append_nil], rfl⟩
  | store v => exact ⟨[], by rw [he.1.pinned, List.append_nil], rfl⟩
  | reset =>
    cases he
    exact ⟨[], (List.append_nil _).symm, rfl⟩
  | pin v =>
    cases he
    exact ⟨[v], rfl, rfl⟩

theorem Effect.length_issued (he : Effect s a t) : t.issued.length = s.issued.length + a.handsOut.toNat := by
  rcases hout : a.handsOut with _ | _
  · rw [(he.eq_of_not_handsOut hout).1]
    rfl
  · rw [(he.handsOut hout).issued, List.length_append]
    rfl

theorem Effect.length_pinned (he : Effect s a t) : t.arena.pinned.length = s.arena.pinned.length + a.pins.toNat := by
  obtain ⟨vs, hvs, hlen⟩ := he.pinned_eq
  rw [hvs, List.length_append, hlen]

theorem Effect.cursor_eq (he : Effect s a t) (ha : a ≠ .reset) (hout : a.handsOut = false) :
    t.arena.cursor = s.arena.cursor := by
  cases a with
  | call r sources => cases hout
  | alloc => cases hout
  | store v => cases hout
  | reset => exact absurd rfl ha
  | pin v =>
    cases he
    rfl

end Effect

section Run

variable {n : Nat} {s t u : State p} {a : Action p} {as : List (Action p)} {new : List Nat}

structure Follows (n : Nat) (s : State p) (as : List (Action p)) (new : List Nat) (t : State p) : Prop where
  sized : Sized n t
  issued : t.issued = s.issued ++ new
  count : new.length = as.countP Action.handsOut
  kept : ∀ i, i ∉ new → t.arena.slots[i]? = s.arena.slots[i]?
  pinned : ∃ vs, t.arena.pinned = s.arena.pinned ++ vs ∧ vs.length = as.countP Action.pins
  turn : Action.reset ∉ as → ∀ j, j < new.length → new[j]? = some ((s.arena.cursor + j) % n)

theorem Follows.nil (h : Sized n s) : Follows n s [] [] s where
  sized := h
  issued := (List.append_nil _).symm
  count := rfl
  kept := fun _ _ => rfl
  pinned := ⟨[], (List.append_nil _).symm, rfl⟩
  turn := by
    intro _ j hj
    cases hj

theorem Follows.pinned_cons (hf : Follows n t as new u) (he : Effect s a t) :
    ∃ vs, u.arena.pinned = s.arena.pinned ++ vs ∧ vs.length = (a :: as).countP Action.pins := by
  obtain ⟨vs, hvs, hlen⟩ := he.pinned_eq
  obtain ⟨vs', hvs', hlen'⟩ := hf.pinned
  refine ⟨vs ++ vs', by rw [hvs', hvs, List.append_assoc], ?_⟩
  rw [List.length_append, hlen, hlen', List.countP_cons]
  cases a.pins <;> simp [Nat.add_comm]

theorem Follows.cons_of_handsOut (h : Sized n s) (he : Effect s a t) (ha : a.handsOut = true)
    (hf : Follows n t as new u) : Follows n s (a :: as) (s.arena.cursor :: new) u := by
  have hout := he.handsOut ha
  refine ⟨hf.sized, ?_, ?_, ?_, hf.pinned_cons he, ?_⟩
  · rw [hf.issued, hout.issued, List.append_assoc, List.singleton_append]
  · rw [List.length_cons, hf.count, List.countP_cons_of_pos ha]
  · intro i hi
    rw [List.mem_cons, not_or] at hi
    rw [hf.kept i hi.2, hout.others i hi.1]
  · intro hreset j hj
    cases j with
    | zero => simp [Nat.mod_eq_of_lt h.cursor]
    | succ j =>
      rw [List.getElem?_cons_succ,
        hf.turn (fun hmem => hreset (List.mem_cons_of_mem _ hmem)) j (Nat.lt_of_succ_lt_succ hj),
        hout.cursor, h.capacity, Nat.mod_add_mod]
      congr 2
      omega

theorem Follows.cons_of_not_handsOut (he : Effect s a t) (ha : a.handsOut = false) (hf : Follows n t as new u) :
    Follows n s (a :: as) new u := by
  obtain ⟨hissued, hslots⟩ := he.eq_of_not_handsOut ha
  refine ⟨hf.sized, ?_, ?_, ?_, hf.pinned_cons he, ?_⟩
  · rw [hf.issued, hissued]
  · rw [hf.count, List.countP_cons_of_neg (by rw [ha]; exact Bool.false_ne_true)]
  · intro i hi
    rw [hf.kept i hi, hslots]
  · intro hreset j hj
    rw [List.mem_cons, not_or] at hreset
    rw [hf.turn hreset.2 j hj, he.cursor_eq (Ne.symm hreset.1) ha]

theorem Sized.exists_run? (h : Sized n s) (has : Allowed s.issued.length s.arena.pinned.length as) :
    ∃ t new, run? s as = some t ∧ Follows n s as new t := by
  induction as generalizing s with
  | nil => exact ⟨s, [], rfl, .nil h⟩
  | cons a as ih =>
    obtain ⟨ha, hrest⟩ := has
    obtain ⟨t, hstep, he⟩ := h.exists_step? ha
    rw [← he.length_issued, ← he.length_pinned] at hrest
    obtain ⟨u, new, hrun, hf⟩ := ih (he.sized h) hrest
    have hrun' : run? s (a :: as) = some u := by
      rw [run?, List.foldlM_cons, hstep]
      exact hrun
    rcases hout : a.handsOut with _ | _
    · exact ⟨u, new, hrun', .cons_of_not_handsOut he hout hf⟩
    · exact ⟨u, _, hrun', .cons_of_handsOut h he hout hf⟩

theorem allowed_append {issued pinned : Nat} {as bs : List (Action p)} (h : Allowed issued pinned (as ++ bs)) :
    Allowed issued pinned as ∧ Allowed (issued + as.countP Action.handsOut) (pinned + as.countP Action.pins) bs := by
  induction as generalizing issued pinned with
  | nil => exact ⟨trivial, h⟩
  | cons a as ih =>
    obtain ⟨ha, hrest⟩ := h
    obtain ⟨has, hbs⟩ := ih hrest
    refine ⟨⟨ha, has⟩, ?_⟩
    rw [List.countP_cons, List.countP_cons]
    cases a <;> simpa [Action.handsOut, Action.pins, Nat.add_assoc, Nat.add_comm, Nat.add_left_comm] using hbs

theorem add_mod_ne {c d : Nat} (hc : c < n) (hd : 0 < d) (hlt : d < n) : (c + d) % n ≠ c := by
  rcases Nat.lt_or_ge (c + d) n with h | h
  · rw [Nat.mod_eq_of_lt h]
    omega
  · rw [Nat.mod_eq_sub_mod h, Nat.mod_eq_of_lt (by omega)]
    omega

theorem Follows.turn_after (hf : Follows n t as new u) (h : Sized n s) (hout : HandsOut s t)
    (hreset : Action.reset ∉ as) :
    (∀ j, new[j]? = some s.arena.cursor → n ≤ j + 1) ∧ (n ≤ new.length → new[n - 1]? = some s.arena.cursor) := by
  have hc := h.cursor
  -- counted from the slot itself, the one at `j` is `j + 1` further on
  have hturn (j : Nat) (hj : j < new.length) : new[j]? = some ((s.arena.cursor + (j + 1)) % n) := by
    rw [hf.turn hreset j hj, hout.cursor, h.capacity, Nat.mod_add_mod, Nat.add_assoc, Nat.add_comm 1]
  constructor
  · intro j hj
    have hlt : j < new.length := (List.getElem?_eq_some_iff.mp hj).1
    rw [hturn j hlt, Option.some_inj] at hj
    by_contra hle
    exact add_mod_ne hc (Nat.succ_pos j) (Nat.not_le.mp hle) hj
  · intro hle
    rw [hturn (n - 1) (by omega), Nat.sub_add_cancel (by omega), Nat.add_mod_right, Nat.mod_eq_of_lt hc]

theorem Follows.read?_handle (hf : Follows n s as new t) {k i : Nat} (hk : s.issued[k]? = some i) (hi : i ∉ new) :
    t.read? (.handle k) = s.read? (.handle k) := by
  have hlt : k < s.issued.length := (List.getElem?_eq_some_iff.mp hk).1
  have hk' : t.issued[k]? = some i := by rw [hf.issued, List.getElem?_append_left hlt, hk]
  rw [State.read?, State.read?, hk', hk]
  exact hf.kept i hi

theorem Follows.read?_pinned (hf : Follows n s as new t) {i : Nat} (hi : i < s.arena.pinned.length) :
    t.read? (.pinned i) = s.read? (.pinned i) := by
  obtain ⟨vs, hvs, -⟩ := hf.pinned
  rw [State.read?, State.read?, hvs, List.getElem?_append_left hi]

end Run

/-- At every point `s` of every allowed sequence on an arena of `n` slots the next action succeeds
and has its effect on the state there. Whatever follows it up to a point `u`, the cursor is below
`n`; a handle reads the same until its slot is handed out again, which without a reset is the `n`th
hand-out from then; and pinned values read the same for good. -/
theorem slots_are_handed_out_in_turn (p : Precision) (n : Nat) (hn : 1 ≤ n) (before : List (Action p)) (a : Action p)
    (after : List (Action p)) (h : Allowed 0 0 (before ++ a :: after)) :
    ∃ s t u new, run? (start p n) before = some s ∧ step? s a = some t ∧ run? t after = some u ∧
      s.arena.capacity = n ∧ s.arena.cursor < n ∧ u.arena.cursor < n ∧
      Effect s a t ∧
      u.issued = t.issued ++ new ∧
      (∀ k i, t.issued[k]? = some i → i ∉ new → u.read? (.handle k) = t.read? (.handle k)) ∧
      (a.handsOut = true → Action.reset ∉ after →
        (∀ j, new[j]? = some s.arena.cursor → n ≤ j + 1) ∧
        (n ≤ new.length → new[n - 1]? = some s.arena.cursor)) ∧
      (∀ i, i < t.arena.pinned.length → u.read? (.pinned i) = t.read? (.pinned i)) := by
  obtain ⟨hbefore, ha, hafter⟩ := allowed_append h
  obtain ⟨s, issued, hrun, hf⟩ := (sized_start p hn).exists_run? hbefore
  obtain ⟨vs, hpinned, hlen⟩ := hf.pinned
  have hissued : s.issued.length = 0 + before.countP Action.handsOut := by
    rw [hf.issued, List.length_append, hf.count]
    rfl
  have hpinned' : s.arena.pinned.length = 0 + before.countP Action.pins := by
    rw [hpinned, List.length_append, hlen]
    rfl
  rw [← hissued, ← hpinned'] at ha hafter
  obtain ⟨t, hstep, he⟩ := hf.sized.exists_step? ha
  rw [← he.length_issued, ← he.length_pinned] at hafter
  obtain ⟨u, new, hrun', hf'⟩ := (he.sized hf.sized).exists_run? hafter
  refine ⟨s, t, u, new, hrun, hstep, hrun', hf.sized.capacity, hf.sized.cursor, hf'.sized.cursor, he, hf'.issued,
    ?_, ?_, ?_⟩
  · intro k i hk hi
    exact hf'.read?_handle hk hi
  · intro hout hreset
    exact hf'.turn_after hf.sized (he.handsOut hout) hreset
  · intro i hi
    exact hf'.read?_pinned hi

theorem slots_are_handed_out_in_turn_in_place :
    let z : Precision.high.Value := BigComplex.i
    let square : Action .high := .call (.binary .mul) [.handle 0, .handle 0]
    1 ≤ 1 ∧ Allowed 0 0 ([.store z] ++ square :: [.alloc]) ∧ ∃ s t, run? (start .high 1) [.store z] = some s ∧
      step? s square = some t ∧ t.issued = [0, 0] ∧ t.read? (.handle 1) = some (Precision.high.binary .mul z z) := by
  intro z square
  have hallowed : Allowed 0 0 ([.store z] ++ square :: [.alloc]) := by
    refine ⟨trivial, ⟨rfl, ?_⟩, trivial, trivial⟩
    intro source hsource
    simp only [List.mem_cons, List.not_mem_nil, or_false, or_self] at hsource
    subst hsource
    exact Nat.one_pos
  obtain ⟨s, t, -, -, hs, ht, -, -, -, -, ⟨hout, zs, v, hcalls⟩, -⟩ :=
    slots_are_handed_out_in_turn .high 1 (Nat.le_refl 1) [.store z] square [.alloc] hallowed
  refine ⟨Nat.le_refl 1, hallowed, s, t, hs, ht, ?_, ?_⟩
  · cases hs
    exact hout.issued
  · cases hs
    obtain ⟨hoperands, hcomputes, hholds, -⟩ := hcalls
    cases hoperands
    cases hcomputes
    exact hholds

end HandOut

end Phasor
