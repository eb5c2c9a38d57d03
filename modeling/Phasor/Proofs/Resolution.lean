import Phasor.Proofs.Publication

namespace Phasor.SymbolTable

variable {ε : Type}

/-- What the outside says about entries: which of them are held by someone, and which report to be
live. -/
structure Standing (ε : Type) where
  held : ε → Bool
  live : ε → Bool

def Standing.counts (w : Standing ε) (e : ε) : Bool := w.held e && w.live e

def latest? (rs : List (String × ε)) (name : String) : Option ε :=
  ((rs.filter (fun r => r.1 = name)).getLast?).map Prod.snd

theorem latest?_append (rs rs' : List (String × ε)) (name : String) :
    latest? (rs ++ rs') name = (latest? rs' name).or (latest? rs name) := by
  unfold latest?
  rw [List.filter_append, List.getLast?_append, Option.map_or]

theorem latest?_singleton (n : String) (e : ε) (name : String) :
    latest? [(n, e)] name = if name = n then some e else none := by
  unfold latest?
  by_cases h : name = n
  · simp [h]
  · simp [h, Ne.symm h]

theorem mem_of_latest? {rs : List (String × ε)} {name : String} {entry : ε} (h : latest? rs name = some entry) :
    (name, entry) ∈ rs := by
  obtain ⟨⟨n, e⟩, hlast, rfl⟩ := Option.map_eq_some_iff.mp h
  obtain ⟨hmem, hn⟩ := List.mem_filter.mp (List.mem_of_getLast? hlast)
  obtain rfl : n = name := of_decide_eq_true hn
  exact hmem

inductive Event (ε : Type) where
  | register (name : String) (entry : ε)
  | setLive (entry : ε) (live : Bool)
  | drop (entry : ε)

structure Moment (ε : Type) where
  table : SymbolTable ε
  standing : Standing ε

namespace Moment

def lookup? (m : Moment ε) (name : String) : Option ε := m.table.lookup? m.standing.counts name

def register (m : Moment ε) (name : String) (entry : ε) : Except Error (SymbolTable ε) :=
  m.table.register m.standing.counts name entry

theorem lookup?_eq_some {m : Moment ε} {name : String} {entry : ε} : m.lookup? name = some entry ↔
    m.table.functions.get? name = some entry ∧ m.standing.held entry = true ∧ m.standing.live entry = true := by
  simp [lookup?, SymbolTable.lookup?, Option.filter_eq_some_iff, Standing.counts]

theorem register_of_lookup? {m : Moment ε} {name : String} (h : (m.lookup? name).isSome = true) (entry : ε) :
    m.register name entry = .error (.duplicateFunction name) := by
  unfold register SymbolTable.register
  exact if_pos h

theorem register_of_not_lookup? {m : Moment ε} {name : String} (h : ¬ (m.lookup? name).isSome = true) (entry : ε) :
    m.register name entry = .ok { m.table with functions := m.table.functions.insert name entry } := by
  unfold register SymbolTable.register
  exact if_neg h

theorem register_eq_error {m : Moment ε} {name : String} {entry : ε} {e : Error} :
    m.register name entry = .error e ↔ e = .duplicateFunction name ∧ (m.lookup? name).isSome = true := by
  by_cases h : (m.lookup? name).isSome = true
  · simp [register_of_lookup? h, h, eq_comm]
  · simp [register_of_not_lookup? h, h]

structure Reflects (constants : Dictionary String Constant) (m : Moment ε) (rs : List (String × ε)) : Prop where
  bindings : ∀ name, m.table.functions.get? name = latest? rs name
  names : m.table.functions.keys = (rs.map Prod.fst).eraseDups
  constants : m.table.constants = constants

section Reflecting

variable {constants : Dictionary String Constant} {m m' : Moment ε} {rs : List (String × ε)}

theorem reflects_start {t : SymbolTable ε} (ht : t = empty ∨ t = standard) (w : Standing ε) :
    (⟨t, w⟩ : Moment ε).Reflects t.constants [] := by
  have hf : t.functions = .empty := by
    rcases ht with rfl | rfl <;> rfl
  refine ⟨?_, ?_, rfl⟩
  · intro name
    simp only [hf]
    rfl
  · simp only [hf]
    rfl

theorem Reflects.insert (h : m.Reflects constants rs) {name : String} {entry : ε}
    (ht : m'.table = { m.table with functions := m.table.functions.insert name entry }) :
    m'.Reflects constants (rs ++ [(name, entry)]) := by
  refine ⟨?_, ?_, ?_⟩
  · intro n
    rw [ht, latest?_append, latest?_singleton, Dictionary.get?_insert, h.bindings]
    by_cases hn : n = name <;> simp [hn]
  · rw [ht, Dictionary.keys_insert, h.names, List.map_append, List.map_singleton, eraseDups_concat]
    simp only [List.mem_eraseDups]
  · rw [ht]
    exact h.constants

theorem Reflects.functionCount_eq (h : m.Reflects constants rs) :
    m.table.functionCount = (rs.map Prod.fst).eraseDups.length := by
  rw [← h.names]
  simp [SymbolTable.functionCount, Dictionary.size, Dictionary.keys]

theorem Reflects.lookup?_eq_some (h : m.Reflects constants rs) {name : String} {entry : ε} :
    m.lookup? name = some entry ↔
      latest? rs name = some entry ∧ m.standing.held entry = true ∧ m.standing.live entry = true := by
  rw [Moment.lookup?_eq_some, h.bindings]

end Reflecting

section Running

variable [DecidableEq ε]

def after (m : Moment ε) : Event ε → Moment ε
  | .register name entry =>
    match m.register name entry with
    | .ok table => { m with table := table }
    | .error _ => m
  | .setLive entry live =>
    { m with standing.live := fun e => if e = entry then live else m.standing.live e }
  | .drop entry => { m with standing.held := fun e => if e = entry then false else m.standing.held e }

def run (m : Moment ε) (events : List (Event ε)) : Moment ε := events.foldl after m

def registered? (m : Moment ε) : Event ε → Option (String × ε)
  | .register name entry =>
    match m.register name entry with
    | .ok _ => some (name, entry)
    | .error _ => none
  | _ => none

def registrations (m : Moment ε) : List (Event ε) → List (String × ε)
  | [] => []
  | event :: events => (m.registered? event).toList ++ (m.after event).registrations events

theorem run_append (m : Moment ε) (events events' : List (Event ε)) :
    m.run (events ++ events') = (m.run events).run events' := List.foldl_append

theorem after_register_of_lookup? {m : Moment ε} {name : String} (h : (m.lookup? name).isSome = true) (entry : ε) :
    m.after (.register name entry) = m := by
  simp only [after, register_of_lookup? h]

variable {constants : Dictionary String Constant} {m : Moment ε} {rs : List (String × ε)}

theorem Reflects.step (h : m.Reflects constants rs) (event : Event ε) :
    (m.after event).Reflects constants (rs ++ (m.registered? event).toList) := by
  cases event with
  | register name entry =>
    by_cases hn : (m.lookup? name).isSome = true
    · rw [after_register_of_lookup? hn]
      simpa [registered?, register_of_lookup? hn] using h
    · have hafter : (m.after (.register name entry)).table =
          { m.table with functions := m.table.functions.insert name entry } := by
        simp only [after, register_of_not_lookup? hn]
      simpa [registered?, register_of_not_lookup? hn] using h.insert hafter
  | setLive entry live => simpa [registered?] using ⟨h.bindings, h.names, h.constants⟩
  | drop entry => simpa [registered?] using ⟨h.bindings, h.names, h.constants⟩

theorem Reflects.run (h : m.Reflects constants rs) (events : List (Event ε)) :
    (m.run events).Reflects constants (rs ++ m.registrations events) := by
  induction events generalizing m rs with
  | nil => rwa [registrations, List.append_nil]
  | cons event events ih =>
    rw [registrations, ← List.append_assoc]
    exact ih (h.step event)

theorem reflects_run {t : SymbolTable ε} (ht : t = empty ∨ t = standard) (w : Standing ε) (events : List (Event ε)) :
    (run ⟨t, w⟩ events).Reflects t.constants (registrations ⟨t, w⟩ events) :=
  (reflects_start ht w).run events

theorem Reflects.displaced (h : m.Reflects constants rs) {name : String} {entry entry' : ε} {table : SymbolTable ε}
    (hok : m.register name entry' = .ok table) (hne : entry ≠ entry') {later : List (Event ε)}
    (hnew : (name, entry) ∉ (m.after (.register name entry')).registrations later) :
    ((m.after (.register name entry')).run later).lookup? name ≠ some entry := by
  intro hlook
  have hreg : m.registered? (.register name entry') = some (name, entry') := by
    simp only [registered?, hok]
  have hrun := (h.step (.register name entry')).run later
  rw [hreg, Option.toList_some] at hrun
  have hlast := (hrun.lookup?_eq_some.mp hlook).1
  rw [latest?_append, Option.or_eq_some_iff] at hlast
  rcases hlast with hlast | ⟨-, hlast⟩
  · exact hnew (mem_of_latest? hlast)
  · rw [latest?_append, latest?_singleton, if_pos rfl, Option.some_or, Option.some.injEq] at hlast
    exact hne hlast.symm

theorem Reflects.functionCount_le_run (h : m.Reflects constants rs) (later : List (Event ε)) :
    m.table.functionCount ≤ (m.run later).table.functionCount := by
  rw [h.functionCount_eq, (h.run later).functionCount_eq, List.map_append, List.eraseDups_append, List.length_append]
  exact Nat.le_add_right _ _

end Running

end Moment

open Moment

/-- After any history, a name resolves to the entry of its last registration if that entry is held
and live, and to nothing otherwise; a name that resolves cannot be registered; an entry that was
displaced stays displaced; the count is that of the names ever registered; and the constants are
those of the start. -/
theorem names_follow_last_registration [DecidableEq ε] {t : SymbolTable ε} (ht : t = empty ∨ t = standard)
    (w : Standing ε) (events : List (Event ε)) :
    (∀ name entry, (run ⟨t, w⟩ events).lookup? name = some entry ↔
      latest? (registrations ⟨t, w⟩ events) name = some entry ∧
        (run ⟨t, w⟩ events).standing.held entry = true ∧ (run ⟨t, w⟩ events).standing.live entry = true) ∧
    (∀ name entry e, (run ⟨t, w⟩ events).register name entry = .error e ↔
      e = .duplicateFunction name ∧ ((run ⟨t, w⟩ events).lookup? name).isSome = true) ∧
    (∀ name entry, ((run ⟨t, w⟩ events).lookup? name).isSome = true →
      run ⟨t, w⟩ (events ++ [.register name entry]) = run ⟨t, w⟩ events) ∧
    (∀ name entry entry' table later, (run ⟨t, w⟩ events).register name entry' = .ok table → entry ≠ entry' →
      (name, entry) ∉ ((run ⟨t, w⟩ events).after (.register name entry')).registrations later →
      (run ⟨t, w⟩ (events ++ .register name entry' :: later)).lookup? name ≠ some entry) ∧
    (run ⟨t, w⟩ events).table.functionCount = ((registrations ⟨t, w⟩ events).map Prod.fst).eraseDups.length ∧
    (∀ later, (run ⟨t, w⟩ events).table.functionCount ≤ (run ⟨t, w⟩ (events ++ later)).table.functionCount) ∧
    (run ⟨t, w⟩ events).table.constants = t.constants := by
  have h := reflects_run ht w events
  refine ⟨fun _ _ => h.lookup?_eq_some, fun _ _ _ => register_eq_error, ?_, ?_, h.functionCount_eq, ?_, h.constants⟩
  · intro name entry hlook
    rw [run_append]
    exact after_register_of_lookup? hlook entry
  · intro name entry entry' table later hok hne hnew
    rw [run_append]
    exact h.displaced hok hne hnew
  · intro later
    rw [run_append]
    exact h.functionCount_le_run later

/-- The first entry under `f` dies, another takes its place, and the first comes back to life: `f`
is the second one for as long as the first is not registered again. -/
theorem names_follow_last_registration_revival :
    (∃ table, (run ⟨standard, ⟨fun _ => true, fun _ => true⟩⟩
        [.register "f" 0, .setLive 0 false]).register "f" 1 = .ok table) ∧
    (run ⟨standard, ⟨fun _ => true, fun _ => true⟩⟩
      [.register "f" 0, .setLive 0 false, .register "f" 1, .setLive 0 true]).lookup? "f" = some 1 ∧
    (run ⟨standard, ⟨fun _ => true, fun _ => true⟩⟩
      [.register "f" 0, .setLive 0 false, .register "f" 1, .setLive 0 true, .drop 1]).lookup? "f" ≠ some 0 := by
  have hdead := names_follow_last_registration (Or.inr rfl) ⟨fun _ => true, fun _ => true⟩
    [.register "f" 0, .setLive 0 false]
  have hback := names_follow_last_registration (Or.inr rfl) ⟨fun _ => true, fun _ => true⟩
    [.register "f" 0, .setLive 0 false, .register "f" 1, .setLive 0 true]
  refine ⟨⟨_, rfl⟩, (hback.1 "f" 1).mpr (by decide), ?_⟩
  exact hdead.2.2.2.1 "f" 0 1 _ [.setLive 0 true, .drop 1] rfl (by decide) (by decide)

end Phasor.SymbolTable
