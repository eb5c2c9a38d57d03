import Phasor.Proofs.Evaluation
import Phasor.Proofs.Slots

namespace Phasor

variable {p : Precision}

def Place.isSlotOf (owner : Nat) : Place → Bool
  | slot o _ => o = owner
  | _ => false

namespace Machine

abbrev Log (p : Precision) := Nat → List Word → Memory p → List Place

def stepStores (stores : Log p) (call : Caller p) (code : Code) (owner : Nat) (values : Array Word) (m : Memory p) :
    Instr → List Place
  | .call f args =>
    match step? call code owner values m (.call f args) with
    | some (.place l, _) => [l]
    | _ => []
  | .callEntry _ target args =>
    match values[target]?, words values args with
    | some (.entry id), some ws => stores id ws m
    | _, _ => []
  | _ => []

def blockStores (stores : Log p) (call : Caller p) (code : Code) (owner : Nat) :
    List Instr → Array Word → Memory p → List Place
  | [], _, _ => []
  | i :: rest, values, m =>
    match step? call code owner values m i with
    | some (w, m') =>
      stepStores stores call code owner values m i ++ blockStores stores call code owner rest (values.push w) m'
    | none => []

def stores : List Installed → Log p
  | [], _, _, _ => []
  | f :: earlier, id, args, m =>
    if f.id = id then blockStores (stores earlier) (call earlier) f.code id f.code.body args.toArray m
    else stores earlier id args m

structure Defines (p : Precision) (owner : Nat) (before : List Instr) (values : Array Word) : Prop where
  size : values.size = p.parameters.length + before.length
  address : ∀ k a, before[k]? = some (.address a) → values[p.parameters.length + k]? = some (resolve owner a)

theorem defines_arguments (owner : Nat) {ws : List Word} (h : ws.length = p.parameters.length) :
    Defines p owner [] ws.toArray :=
  ⟨by simp [h], by simp⟩

theorem Defines.push {call : Caller p} {code : Code} {owner : Nat} {before : List Instr} {values : Array Word}
    {m m' : Memory p} {i : Instr} {w : Word} (h : Defines p owner before values)
    (hs : step? call code owner values m i = some (w, m')) : Defines p owner (before ++ [i]) (values.push w) := by
  refine ⟨by simp [h.size]; omega, ?_⟩
  intro k a hk
  rcases Nat.lt_trichotomy k before.length with hlt | heq | hgt
  · rw [List.getElem?_append_left hlt] at hk
    rw [Array.getElem?_push_lt (by have := h.size; omega)]
    rw [← Array.getElem?_eq_getElem, h.address k a hk]
  · subst heq
    obtain rfl : i = .address a := by simpa using hk
    rw [← h.size, Array.getElem?_push_size]
    simp only [step?, Option.some.injEq, Prod.mk.injEq] at hs
    rw [← hs.1]
  · rw [List.getElem?_eq_none (by simp; omega)] at hk
    cases hk

theorem words_eq_some {values : Array Word} {args : List Nat} {ws : List Word} (h : words values args = some ws) :
    List.Forall₂ (fun k w => values[k]? = some w) args ws := by
  induction args generalizing ws with
  | nil =>
    obtain rfl : [] = ws := by simpa [words] using h
    exact .nil
  | cons k ks ih =>
    simp only [words, List.mapM_cons, Option.pure_def, Option.bind_eq_bind, Option.bind_eq_some_iff,
      Option.some.injEq] at h
    obtain ⟨w, hw, us, hus, rfl⟩ := h
    exact .cons hw (ih hus)

theorem words_getLast? {values : Array Word} {args : List Nat} {ws : List Word} {v : Nat}
    (h : words values args = some ws) (hv : args.getLast? = some v) : ws.getLast? = values[v]? := by
  have hrev := List.forall₂_reverse_iff.mpr (words_eq_some h)
  rw [← List.head?_reverse] at hv ⊢
  generalize args.reverse = ks, ws.reverse = us at hrev hv ⊢
  cases hrev with
  | nil => cases hv
  | cons hw _ =>
    obtain rfl := Option.some.inj hv
    exact hw.symm

theorem Defines.callee {owner : Nat} {callees : List Nat} {before : List Instr} {values : Array Word}
    {signature target : Nat} {args : List Nat} (h : Defines p owner before values)
    (hi : (Instr.callEntry signature target args).Placed p callees before) :
    ∃ id ∈ callees, values[target]? = some (.entry id) ∧
      ∀ ws, words values args = some ws → ws.length = p.parameters.length := by
  obtain ⟨hargs, k, id, rfl, hload, hid⟩ := hi
  refine ⟨id, hid, h.address k _ hload, ?_⟩
  intro ws hw
  exact (words_eq_some hw).length_eq.symm.trans hargs

section Step

variable {log : Log p} {call : Caller p} {code : Code} {owner : Nat} {callees : List Nat} {before : List Instr}
  {values : Array Word} {m m' : Memory p}

theorem callRoutine?_eq_some {r : Routine} {ws : List Word} {l : Place} (h : callRoutine? m r ws = some (l, m'))
    (ho : ws.getLast? = some (.arena owner)) : ∃ z, m.store? owner z = some (l, m') := by
  simp only [callRoutine?, ho, Option.bind_eq_bind, Option.bind_some, Option.bind_eq_some_iff] at h
  obtain ⟨zs, -, z, -, hz⟩ := h
  exact ⟨z, hz⟩

theorem step_cases (log : Log p) {i : Instr} {w : Word} (hd : Defines p owner before values)
    (hi : i.Placed p callees before) (hs : step? call code owner values m i = some (w, m')) :
    (∃ l z, i.isCall = true ∧ m.store? owner z = some (l, m') ∧
      stepStores log call code owner values m i = [l]) ∨
    (∃ id ∈ callees, ∃ ws l, i.isCall = false ∧ ws.length = p.parameters.length ∧ call id ws m = some (l, m') ∧
      stepStores log call code owner values m i = log id ws m) ∨
    (i.isCall = false ∧ m' = m ∧ stepStores log call code owner values m i = []) := by
  cases i with
  | address a =>
    cases hs
    exact .inr (.inr ⟨rfl, rfl, rfl⟩)
  | const bits =>
    cases hs
    exact .inr (.inr ⟨rfl, rfl, rfl⟩)
  | arith op a b =>
    refine .inr (.inr ⟨rfl, ?_, rfl⟩)
    simp only [step?, Option.bind_eq_bind, Option.bind_eq_some_iff] at hs
    obtain ⟨u, -, hs⟩ := hs
    split at hs
    · obtain ⟨v, -, hs⟩ := Option.bind_eq_some_iff.mp hs
      split at hs
      · cases hs
        rfl
      · cases hs
    · cases hs
  | load part base =>
    refine .inr (.inr ⟨rfl, ?_, rfl⟩)
    simp only [step?, Option.bind_eq_bind, Option.bind_eq_some_iff] at hs
    obtain ⟨u, -, x, -, he⟩ := hs
    cases he
    rfl
  | call f args =>
    obtain ⟨k, hlast, hload⟩ := hi
    have hs' := hs
    simp only [step?, Option.bind_eq_bind, Option.bind_eq_some_iff] at hs'
    obtain ⟨imp, -, ws, hws, ⟨l, m₁⟩, hr, he⟩ := hs'
    cases he
    have ho : ws.getLast? = some (.arena owner) := (words_getLast? hws hlast).trans (hd.address k _ hload)
    obtain ⟨z, hz⟩ := callRoutine?_eq_some hr ho
    exact .inl ⟨l, z, rfl, hz, by simp [stepStores, hs]⟩
  | callEntry signature target args =>
    obtain ⟨id, hid, htarget, hlength⟩ := hd.callee hi
    simp only [step?, htarget, Option.bind_eq_bind, Option.bind_some, Option.bind_eq_some_iff] at hs
    obtain ⟨ws, hws, ⟨l, m₁⟩, hcall, he⟩ := hs
    cases he
    exact .inr (.inl ⟨id, hid, ws, l, rfl, hlength ws hws, hcall, by simp [stepStores, htarget, hws]⟩)
  | ret v => exact hi.elim

theorem runBlock_cons_eq {i : Instr} (hi : i.Placed p callees before) (rest : List Instr) (values : Array Word)
    (m : Memory p) : runBlock call code owner (i :: rest) values m =
      (step? call code owner values m i).bind (fun r => runBlock call code owner rest (values.push r.1) r.2) := by
  cases i with
  | ret v => exact hi.elim
  | _ => rfl

theorem run_preserves {I : List Instr → Memory p → List Place → Prop} {body : List Instr} {v : Nat} {l : Place}
    (hbody : Code.Placed p callees body) (hv : Defines p owner [] values) (hstart : I [] m [])
    (hstep : ∀ before i us m₁ m₂ ls w, before ++ [i] <+: body → Defines p owner before us →
      step? call code owner us m₁ i = some (w, m₂) → I before m₁ ls →
        I (before ++ [i]) m₂ (ls ++ stepStores log call code owner us m₁ i))
    (hrun : runBlock call code owner (body ++ [.ret v]) values m = some (l, m')) :
    I body m' (blockStores log call code owner (body ++ [.ret v]) values m) := by
  suffices h : ∀ rest before us m₁ ls, before ++ rest = body → Defines p owner before us → I before m₁ ls →
      runBlock call code owner (rest ++ [.ret v]) us m₁ = some (l, m') →
        I body m' (ls ++ blockStores log call code owner (rest ++ [.ret v]) us m₁) from
    h body [] values m [] rfl hv hstart hrun
  intro rest
  induction rest with
  | nil =>
    intro before us m₁ ls hsplit _ hI hr
    obtain rfl : before = body := by simpa using hsplit
    simp only [List.nil_append, runBlock, Option.bind_eq_bind, Option.bind_eq_some_iff] at hr
    obtain ⟨u, -, hr⟩ := hr
    split at hr
    · cases hr
      simpa [blockStores, step?] using hI
    · cases hr
  | cons i rest ih =>
    intro before us m₁ ls hsplit hd hI hr
    have hprefix : before ++ [i] <+: body := ⟨rest, by simpa using hsplit⟩
    rw [List.cons_append, runBlock_cons_eq (hbody before i hprefix), Option.bind_eq_some_iff] at hr
    obtain ⟨⟨w, m₂⟩, hs, hr⟩ := hr
    have h := ih (before ++ [i]) (us.push w) m₂ _ (by simpa using hsplit) (hd.push hs)
      (hstep before i us m₁ m₂ ls w hprefix hd hs hI) hr
    simpa [blockStores, hs] using h

end Step

end Machine

namespace Memory

variable {m m' : Memory p} {owner : Nat} {z : p.Value} {l : Place}

theorem store?_eq_some (h : m.store? owner z = some (l, m')) :
    ∃ r : Arena p.Value, m.arenas.get? owner = some r ∧ l = .slot owner r.cursor ∧ m'.argument = m.argument ∧
      m'.arenas = m.arenas.insert owner { r with
        slots := r.slots.set r.cursor z
        cursor := if r.cursor + 1 = r.slots.length then 0 else r.cursor + 1 } := by
  simp only [store?, Option.bind_eq_bind, Option.bind_eq_some_iff] at h
  obtain ⟨r, hr, ⟨c, r'⟩, hstore, he⟩ := h
  cases he
  simp only [Arena.store?, Arena.alloc?] at hstore
  split at hstore
  · cases hstore
  · cases hstore
    exact ⟨r, hr, rfl, rfl, rfl⟩

theorem read?_of_store? (h : m.store? owner z = some (l, m')) {k : Place} (hk : k ≠ l) : m'.read? k = m.read? k := by
  obtain ⟨r, hr, rfl, hargument, harenas⟩ := store?_eq_some h
  cases k with
  | argument => simp [read?, hargument]
  | slot o i =>
    by_cases ho : o = owner
    · subst ho
      have hi : r.cursor ≠ i := fun he => hk (he ▸ rfl)
      simp [read?, harenas, Dictionary.get?_insert, hr, List.getElem?_set_ne hi]
    · simp [read?, harenas, Dictionary.get?_insert, ho]
  | pinned o i =>
    by_cases ho : o = owner
    · subst ho
      simp [read?, harenas, Dictionary.get?_insert, hr]
    · simp [read?, harenas, Dictionary.get?_insert, ho]

end Memory

/-- What holds of every store into an arena of the library, and of two stretches of a run one after
the other, holds of every call. -/
theorem Library.call_induct {Q : Memory p → Memory p → List Place → Prop} {lib : Library p} (hnone : ∀ m, Q m m [])
    (hboth : ∀ m₁ m₂ m₃ ls ls', Q m₁ m₂ ls → Q m₂ m₃ ls' → Q m₁ m₃ (ls ++ ls'))
    (hstore : ∀ owner ∈ lib.ids, ∀ m z l m', m.store? owner z = some (l, m') → Q m m' [l])
    {id : Nat} {ws : List Word} {m m' : Memory p} {l : Place} (hlength : ws.length = p.parameters.length)
    (hcall : Machine.call lib.functions id ws m = some (l, m')) : Q m m' (Machine.stores lib.functions id ws m) := by
  -- a function calls only further down the list, where the hypothesis of the induction speaks
  induction lib generalizing id ws m m' l with
  | nil => cases hcall
  | cons f lib ih =>
    have hearlier := fun owner ho => hstore owner (List.mem_cons_of_mem f.id ho)
    by_cases he : f.installed.id = id
    · subst he
      simp only [functions, List.map_cons, Machine.call, Machine.stores, ↓reduceIte] at hcall ⊢
      obtain ⟨body, v, hcode, hplaced, -⟩ := Artifact.placed_ofTokens f.built
      rw [← f.code] at hcode
      rw [hcode] at hcall ⊢
      refine Machine.run_preserves (I := fun _ m₁ ls => Q m m₁ ls) hplaced
        (Machine.defines_arguments _ hlength) (hnone m) ?_ hcall
      intro before i us m₁ m₂ ls w hi hd hs hQ
      rcases Machine.step_cases (Machine.stores (lib.map Member.installed)) hd (hplaced before i hi) hs with
        ⟨k, z, -, hz, heq⟩ | ⟨id, -, vs, k, -, hvs, hnested, heq⟩ | ⟨-, rfl, heq⟩
      · exact heq ▸ hboth _ _ _ _ _ hQ (hstore _ List.mem_cons_self _ _ _ _ hz)
      · exact heq ▸ hboth _ _ _ _ _ hQ (ih hearlier hvs hnested)
      · rwa [heq, List.append_nil]
    · simp only [functions, List.map_cons, Machine.call, Machine.stores, he, ↓reduceIte] at hcall ⊢
      exact ih hearlier hlength hcall

namespace Library

variable {lib : Library p} {id owner : Nat} {ws : List Word} {m m' : Memory p} {l : Place}

theorem read?_of_call (lib : Library p) (hlength : ws.length = p.parameters.length)
    (hcall : Machine.call lib.functions id ws m = some (l, m')) (k : Place)
    (hk : k ∉ Machine.stores lib.functions id ws m) : m'.read? k = m.read? k := by
  refine call_induct (Q := fun m m' ls => k ∉ ls → m'.read? k = m.read? k) (fun _ _ => rfl) ?_ ?_ hlength hcall hk
  · intro m₁ m₂ m₃ ls ls' h₁ h₂ hk
    rw [List.mem_append, not_or] at hk
    exact (h₂ hk.2).trans (h₁ hk.1)
  · intro owner _ m₁ z l₁ m₂ hz hk
    exact Memory.read?_of_store? hz (by simpa using hk)

theorem spared_by_call (ho : owner ∉ lib.ids) (hlength : ws.length = p.parameters.length)
    (hcall : Machine.call lib.functions id ws m = some (l, m')) :
    m'.arenas.get? owner = m.arenas.get? owner ∧
      (Machine.stores lib.functions id ws m).filter (Place.isSlotOf owner) = [] := by
  refine call_induct (Q := fun m m' ls => m'.arenas.get? owner = m.arenas.get? owner ∧
    ls.filter (Place.isSlotOf owner) = []) (fun _ => ⟨rfl, rfl⟩) ?_ ?_ hlength hcall
  · intro m₁ m₂ m₃ ls ls' h₁ h₂
    exact ⟨h₂.1.trans h₁.1, by simp only [List.filter_append, h₁.2, h₂.2, List.append_nil]⟩
  · intro g hg m₁ z l₁ m₂ hz
    have hne : owner ≠ g := fun he => ho (he ▸ hg)
    obtain ⟨r, -, rfl, -, harenas⟩ := Memory.store?_eq_some hz
    exact ⟨by simp [harenas, Dictionary.get?_insert, hne], by simp [Place.isSlotOf, Ne.symm hne]⟩

end Library

def Memory.HandedOut (m : Memory p) (owner n k : Nat) : Prop :=
  ∃ r, m.arenas.get? owner = some r ∧ r.slots.length = n ∧ r.cursor = if k = n then 0 else k

theorem Memory.HandedOut.store {m m' : Memory p} {owner n k : Nat} {z : p.Value} {l : Place}
    (h : m.HandedOut owner n k) (hk : k < n) (hz : m.store? owner z = some (l, m')) :
    l = .slot owner k ∧ m'.HandedOut owner n (k + 1) := by
  obtain ⟨r, hr, hlength, hcursor⟩ := h
  rw [if_neg (by omega)] at hcursor
  obtain ⟨r', hr', rfl, -, harenas⟩ := Memory.store?_eq_some hz
  obtain rfl := Option.some.inj (hr.symm.trans hr')
  exact ⟨by rw [hcursor], _, by rw [harenas, Dictionary.get?_insert, if_pos rfl], by simpa using hlength,
    by simp only [hcursor, hlength]⟩

theorem Artifact.stores_of_run {scope : Scope} {settings : Settings} {parameter : String} {tokens : List Token}
    {a : Artifact p} (h : ofTokens scope settings parameter tokens = .ok a) {lib : Library p} {id : Nat}
    {ws : List Word} {m m' : Memory p} {l : Place} (hid : id ∉ lib.ids)
    (hlength : ws.length = p.parameters.length) (hstart : m.HandedOut id a.arenaSize 0)
    (hrun : Machine.runBlock (Machine.call lib.functions) a.code id a.code.body ws.toArray m = some (l, m')) :
    m'.HandedOut id a.arenaSize a.arenaSize ∧
      (Machine.blockStores (Machine.stores lib.functions) (Machine.call lib.functions) a.code id a.code.body ws.toArray
        m).filter (Place.isSlotOf id) = (List.range a.arenaSize).map (Place.slot id) := by
  obtain ⟨body, v, hbody, hplaced, hslots⟩ := placed_ofTokens h
  rw [hbody] at hrun ⊢
  rw [← hslots] at hstart ⊢
  -- as many slots are handed out as routines were called, and the calls of the whole code are as many as the slots
  refine Machine.run_preserves (I := fun before m₁ ls =>
    m₁.HandedOut id (body.countP Instr.isCall) (before.countP Instr.isCall) ∧
      ls.filter (Place.isSlotOf id) = (List.range (before.countP Instr.isCall)).map (Place.slot id))
    hplaced (Machine.defines_arguments _ hlength) ⟨hstart, rfl⟩ ?_ hrun
  intro before i us m₁ m₂ ls w hi hd hs ⟨hhanded, hlog⟩
  rw [List.countP_append, List.filter_append, hlog]
  rcases Machine.step_cases (Machine.stores lib.functions) hd (hplaced before i hi) hs with
    ⟨k, z, hc, hz, heq⟩ | ⟨g, -, vs, k, hc, hvs, hnested, heq⟩ | ⟨hc, rfl, heq⟩
  · have hle : before.countP Instr.isCall < body.countP Instr.isCall := by
      have := hi.sublist.countP_le (p := Instr.isCall)
      simp [hc] at this
      omega
    obtain ⟨rfl, hnext⟩ := hhanded.store hle hz
    simp [heq, hc, hnext, List.range_succ, Place.isSlotOf]
  · obtain ⟨harena, hnone⟩ := Library.spared_by_call hid hvs hnested
    refine ⟨?_, by simp [heq, hc, hnone]⟩
    simpa [Memory.HandedOut, hc, harena] using hhanded
  · simp [heq, hc, hhanded]

/-- The arena of a function has exactly the slots that a run stores into. Their number and that of
the pinned constants are counted by the tokens. A call that starts with the cursor at the first slot
stores into each slot once, in order, and leaves the cursor at the first; it does so whatever else
memory holds, and it returns if the functions that it can call are at rest. -/
theorem arena_is_filled_by_a_run {scope : Scope} {settings : Settings} {parameter : String} {tokens : List Token}
    {a : Artifact p} (h : Artifact.ofTokens scope settings parameter tokens = .ok a) :
    (p = .double →
      a.arenaSize = tokens.countP Token.callsRoutine + (if tokens.getLast?.any Token.callsRoutine then 0 else 1) ∧
      a.pinned.length = 0) ∧
    (p = .high →
      a.arenaSize = tokens.countP (·.kind = .operator) + tokens.countP (·.kind = .call) ∧
      a.pinned.length = tokens.countP (·.kind = .number) +
        tokens.countP (fun t => t.kind = .identifier && t.value ≠ parameter)) ∧
    ∀ (lib : Library p) (f : Installed) (m : Memory p) (r : Arena p.Value) (ws : List Word), f.code = a.code →
      f.callees = a.callees → f.id ∉ lib.ids → m.arenas.get? f.id = some r →
      r.slots.length = a.arenaSize → r.cursor = 0 →
      (∀ l m', ws.length = p.parameters.length → Machine.call (f :: lib.functions) f.id ws m = some (l, m') →
        (Machine.stores (f :: lib.functions) f.id ws m).filter (Place.isSlotOf f.id) =
            (List.range a.arenaSize).map (Place.slot f.id) ∧
          m'.cursor? f.id = some 0 ∧
          ∀ k, k ∉ Machine.stores (f :: lib.functions) f.id ws m → m'.read? k = m.read? k) ∧
      (lib.Ready scope m → r.pinned = a.pinned → ∀ x, Machine.Passes p (f.id :: lib.ids) m ws x →
        ∃ l m', Machine.call (f :: lib.functions) f.id ws m = some (l, m')) := by
  refine ⟨?_, ?_, ?_⟩
  · rintro rfl
    exact Artifact.sizes_double h
  · rintro rfl
    exact Artifact.sizes_high h
  · intro lib f m r ws hcode hcallees hid hr hslots hcursor
    let g : Member p := ⟨f, scope, settings, parameter, tokens, a, h, hcode, hcallees⟩
    refine ⟨?_, ?_⟩
    · intro l m' hlength hcall
      have hlists := Library.read?_of_call (g :: lib) hlength hcall
      have hstart : m.HandedOut f.id a.arenaSize 0 := ⟨r, hr, hslots, by simp [hcursor]⟩
      have hrun : Machine.runBlock (Machine.call lib.functions) a.code f.id a.code.body ws.toArray m =
          some (l, m') := by
        simpa [Machine.call, hcode] using hcall
      obtain ⟨⟨r', hr', -, hcursor'⟩, hlog⟩ := Artifact.stores_of_run h hid hlength hstart hrun
      refine ⟨?_, by simp [Memory.cursor?, hr', hcursor'], hlists⟩
      simpa [Machine.stores, hcode] using hlog
    · intro hready hpin x hx
      have hcalls : ∀ id ∈ g.artifact.callees, id ∈ lib.ids := hready.calls_mem h
      obtain ⟨meaning, hm⟩ := (Library.Linked.cons hcalls hid hready.linked).exists_meaning
      have hrest : m.AtRest (g :: lib) := Memory.atRest_cons.mpr ⟨⟨r, hr, hslots, hpin, hcursor⟩, hready.rests⟩
      obtain ⟨l, m', hcall, -⟩ :=
        (Library.Linked.cons hcalls hid hready.linked).serves hm f.id List.mem_cons_self m ws x
        hrest hx
      exact ⟨l, m', hcall⟩

theorem arena_is_filled_by_a_run_square : ∃ (lib : Library .high) (f : Installed) (m m' : Memory .high) (l : Place),
    lib.ids = [0] ∧ f.id = 1 ∧ Machine.call (f :: lib.functions) 1 [.place .argument] m = some (l, m') ∧
    (Machine.stores (f :: lib.functions) 1 [.place .argument] m).filter (Place.isSlotOf 1) = [.slot 1 0, .slot 1 1] ∧
    m'.cursor? 1 = some 0 := by
  obtain ⟨lib, m, hids, hready⟩ := Library.exists_ready_square .high
  have hparse : Tree.parse (.only "square" ⟨.high, 0⟩) .high false "x"
      [.identifier "x", .call "square", .number "2", .operator "/"] =
        .ok (.binary .div (.call "square" (.identifier "x")) (.number "2")) := rfl
  obtain ⟨a, ha⟩ := Artifact.exists_ofTokens {} hparse
  obtain ⟨-, hsizes, hrun⟩ := arena_is_filled_by_a_run ha
  obtain ⟨hsize, -⟩ := hsizes rfl
  let f : Installed := ⟨1, a.code, a.callees, false⟩
  let m₁ : Memory .high := { m with arenas := m.arenas.insert 1 a.arena }
  have hfresh : f.id ∉ lib.ids := by simp [f, hids]
  have harena : m₁.arenas.get? f.id = some a.arena := by simp [m₁, f, Dictionary.get?_insert]
  have hready₁ : lib.Ready (.only "square" ⟨.high, 0⟩) m₁ := by
    have hagrees : m.AgreesOff [f.id] m₁ := by
      refine ⟨rfl, ?_⟩
      intro id hid
      simp [m₁, Dictionary.get?_insert, show id ≠ 1 by simpa [f] using hid]
    exact hready.with_memory (hready.rests.of_agrees hagrees (by simpa using hfresh))
  have hrests := a.rests_arena
  obtain ⟨hstores, hreturns⟩ :=
    hrun lib f m₁ a.arena [.place .argument] rfl rfl hfresh harena hrests.capacity hrests.cursor
  obtain ⟨l, m', hcall⟩ := hreturns hready₁ rfl m.argument ⟨.argument, rfl, rfl, trivial⟩
  obtain ⟨hlog, hcursor, -⟩ := hstores l m' rfl hcall
  rw [hsize] at hlog
  exact ⟨lib, f, m₁, m', l, hids, rfl, hcall, hlog, hcursor⟩

end Phasor
