import Phasor.Proofs.Ownership

namespace Phasor

variable {p : Precision}

theorem Dictionary.size_insert {κ α : Type} [DecidableEq κ] (d : Dictionary κ α) (k : κ) (a : α) :
    (d.insert k a).size = if k ∈ d.keys then d.size else d.size + 1 := by
  have hsize (d : Dictionary κ α) : d.size = d.keys.length := by simp [size, keys]
  rw [hsize, hsize, keys_insert]
  split
  · rfl
  · simp

theorem SymbolTable.register_eq_ok {ε : Type} {t table : SymbolTable ε} {live : ε → Bool} {name : String} {entry : ε}
    (h : t.register live name entry = .ok table) : table = { t with functions := t.functions.insert name entry } := by
  unfold register at h
  split at h
  · cases h
  · exact (Except.ok.inj h).symm

namespace Realm

variable {r : Realm p}

theorem Tidy.sweep_eq (h : r.Tidy) : r.sweep = r := by
  have hinstalled : r.sweep.installed = r.installed := h.kept
  have harenas : r.sweep.memory.arenas = r.memory.arenas := by
    have hall : ∀ e ∈ r.memory.arenas.entries, r.installed.any (·.id = e.1) = true := by
      intro e he
      have hget : (r.memory.arenas.get? e.1).isSome = true :=
        Dictionary.mem_keys.mp (List.mem_map_of_mem he)
      obtain ⟨g, hg, hid⟩ := h.arenas e.1 (by simpa [Memory.shape] using hget)
      exact List.any_eq_true.mpr ⟨g, hg, by simpa using hid⟩
    change Dictionary.mk (r.memory.arenas.entries.filter (fun e => r.sweep.installed.any (·.id = e.1))) = _
    rw [hinstalled, List.filter_eq_self.mpr hall]
  change { r with installed := r.sweep.installed, memory := { r.memory with arenas := r.sweep.memory.arenas } } = r
  rw [hinstalled, harenas]

theorem isLive_load_of_lt {n : Nat} (h : n < r.nextId) (a : Artifact p) : (r.load a).isLive n = r.isLive n := by
  have hne : r.nextId ≠ n := Nat.ne_of_gt h
  simp [isLive, find?, load, hne]

theorem isLive_load_nextId (r : Realm p) (a : Artifact p) : (r.load a).isLive r.nextId = true := by
  simp [isLive, find?, load]

end Realm

namespace Session

variable {s : Session}

def registered? (s : Session) : Operation → Option (String × EntryRef)
  | .compile p id q loader =>
    match (s.compile p id q loader).1 with
    | .ok f => f.entry?.map (fun n => (q.key, ⟨p, n⟩))
    | .error _ => none
  | .register p id key =>
    match (s.register p id key).1 with
    | .ok _ => ((s.function? p id).bind Callable.entry?).map (fun n => (key, ⟨p, n⟩))
    | .error _ => none
  | _ => none

theorem functions_after (s : Session) (o : Operation) :
    (s.after o).table.functions =
      match s.registered? o with
      | none => s.table.functions
      | some (name, e) => s.table.functions.insert name e := by
  cases o with
  | compile q id request loader =>
    simp only [after, registered?, compile, compileWith]
    rcases hx : s.publish q request loader with ⟨x, s'⟩
    cases publishes hx with
    | duplicate => simp only [table_setRealm]
    | rejected => simp only [table_setRealm]
    | refused => simp only [table_setRealm]
    | taken => simp only [table_setRealm]
    | published _ _ _ ht => simp only [table_setRealm, Compiled.entry?, Option.map_some, SymbolTable.register_eq_ok ht]
  | register q id key =>
    simp only [after, registered?, Session.register]
    rcases hf : s.function? q id with _ | c
    · rfl
    · rcases he : c.entry? with _ | n
      · simp only [he]
      · rcases ht : s.table.register s.isLive key ⟨q, n⟩ with e | table
        · simp only [he, ht]
        · simp only [he, ht, Option.bind_some, Option.map_some, SymbolTable.register_eq_ok ht]
  | define name c => rfl
  | build q id request =>
    simp only [after, registered?, build]
    split <;> simp only [table_setRealm]
  | install q id loader =>
    simp only [after, registered?, Session.install]
    split <;> simp only [table_setRealm]
  | invoke q id xs =>
    simp only [after, registered?, Session.invoke]
    split <;> simp only [table_setRealm]
  | release q id =>
    simp only [after, registered?, Session.release]
    split <;> simp only [table_setRealm]
  | drop q id => exact congrArg SymbolTable.functions (table_setRealm s _)
  | putBuiltin q id f => exact congrArg SymbolTable.functions (table_setRealm s _)
  | evaluate q parameter x tokens => exact congrArg SymbolTable.functions (table_setRealm s _)

theorem Reachable.ready_lt (h : s.Reachable) {id : String} {f : Compiled p} {n : Nat}
    (hf : s.function? p id = some (.compiled f)) (hs : f.stage = .ready n) : n < (s.realm p).nextId := by
  obtain ⟨lib, meaning, hm⟩ := h.models p
  exact hm.numbered n (invoke_eq_ok hm hf hs []).1

theorem Reachable.registered?_lt (h : s.Reachable) {o : Operation} {name : String} {e : EntryRef}
    (hr : s.registered? o = some (name, e)) : e.id < ((s.after o).realm e.precision).nextId := by
  cases o with
  | compile q id request loader =>
    simp only [registered?, compile, compileWith] at hr
    simp only [Session.after, compile, compileWith]
    rcases hx : s.publish q request loader with ⟨x, s'⟩
    rw [hx] at hr
    cases publishes hx with
    | duplicate => cases hr
    | rejected => cases hr
    | refused => cases hr
    | taken => cases hr
    | published =>
      obtain ⟨rfl, rfl⟩ := hr
      simp only [realm_setRealm, realm_withTable]
      exact Nat.lt_succ_self _
  | register q id key =>
    have hmono := (effect_after h (.register q id key) q).step.nextId
    simp only [registered?] at hr
    split at hr
    · obtain ⟨n, hn, he⟩ := Option.map_eq_some_iff.mp hr
      obtain ⟨c, hc, hentry⟩ := Option.bind_eq_some_iff.mp hn
      obtain ⟨f, rfl, hs⟩ := Callable.exists_ready_of_entry? hentry
      cases he
      exact Nat.lt_of_lt_of_le (h.ready_lt hc hs) hmono
    · cases hr
  | _ => cases hr

theorem Reachable.entry_lt (h : s.Reachable) {name : String} {e : EntryRef}
    (he : s.table.functions.get? name = some e) : e.id < (s.realm e.precision).nextId := by
  induction h with
  | start constants => cases he
  | @after s h o ih =>
    have hold (he : s.table.functions.get? name = some e) : e.id < ((s.after o).realm e.precision).nextId :=
      Nat.lt_of_lt_of_le (ih he) (effect_after h o e.precision).step.nextId
    rw [functions_after] at he
    split at he
    · exact hold he
    · rename_i key e' hr
      rw [Dictionary.get?_insert] at he
      split at he
      · cases he
        exact h.registered?_lt hr
      · exact hold he

theorem Reachable.isLive_load (h : s.Reachable) (a : Artifact p) {name : String} {e : EntryRef}
    (he : s.table.functions.get? name = some e) : (s.setRealm ((s.realm p).load a)).isLive e = s.isLive e := by
  have hlt := h.entry_lt he
  obtain ⟨q, n⟩ := e
  unfold isLive
  by_cases hq : q = p
  · subst hq
    simp only [realm_setRealm]
    exact Realm.isLive_load_of_lt hlt a
  · simp only [realm_setRealm_of_ne _ _ hq]

theorem Reachable.lookup?_load (h : s.Reachable) (a : Artifact p) (name : String) :
    s.table.lookup? (s.setRealm ((s.realm p).load a)).isLive name = s.lookup? name := by
  unfold lookup? SymbolTable.lookup?
  rcases he : s.table.functions.get? name with _ | e
  · rfl
  · simp only [Option.filter_some, h.isLive_load a he]

theorem Reachable.register_load (h : s.Reachable) (a : Artifact p) {name : String} (hk : s.lookup? name = none)
    (e : EntryRef) : s.table.register (s.setRealm ((s.realm p).load a)).isLive name e =
      .ok { s.table with functions := s.table.functions.insert name e } := by
  simp [SymbolTable.register, h.lookup?_load a, hk]

def loadAs (s : Session) (key : String) (a : Artifact p) : Session :=
  { s.setRealm ((s.realm p).load a) with
    table := { s.table with functions := s.table.functions.insert key ⟨p, (s.realm p).nextId⟩ } }

theorem Reachable.lookup?_loadAs (h : s.Reachable) (key : String) (a : Artifact p) (name : String) :
    (s.loadAs key a).lookup? name = if name = key then some ⟨p, (s.realm p).nextId⟩ else s.lookup? name := by
  have hlive : (s.loadAs key a).isLive = (s.setRealm ((s.realm p).load a)).isLive := by
    funext e
    unfold loadAs isLive
    rw [realm_withTable]
  unfold lookup? SymbolTable.lookup?
  rw [hlive]
  change ((s.table.functions.insert key _).get? name).filter _ = _
  rw [Dictionary.get?_insert]
  split
  · have hnew : (s.setRealm ((s.realm p).load a)).isLive ⟨p, (s.realm p).nextId⟩ = true := by
      unfold isLive
      rw [realm_setRealm]
      exact Realm.isLive_load_nextId _ a
    rw [Option.filter_some, if_pos hnew]
  · exact h.lookup?_load a name

inductive Compiles (s : Session) (p : Precision) (q : Request) (loader : Loader p) :
    Except Error (Compiled p) → Session → Prop
  | duplicate (hk : (s.lookup? q.key).isSome = true) : Compiles s p q loader (.error (.duplicateFunction q.key)) s
  | failed {e : Error} (hk : s.lookup? q.key = none) (he : ∀ name, e ≠ .duplicateFunction name)
      (hn : ∀ a, Artifact.ofTokens s.scope q.settings q.parameter q.tokens = .ok a → loader a ≠ .ok ()) :
      Compiles s p q loader (.error e) s
  | published {f : Compiled p} {a : Artifact p} (hk : s.lookup? q.key = none)
      (hf : f.entry? = some (s.realm p).nextId) : Compiles s p q loader (.ok f) (s.loadAs q.key a)

theorem Reachable.compiles (h : s.Reachable) {q : Request} {loader : Loader p} {x : Except Error (Compiled p)}
    {s' : Session} (hx : s.compileWith p q loader = (x, s')) : s.Compiles p q loader x s' := by
  have hswept : s.setRealm (s.realm p).sweep = s := by rw [(h.tidy p).sweep_eq, setRealm_realm]
  suffices h : s.Compiles p q loader (s.compileWith p q loader).1 (s.compileWith p q loader).2 by
    rwa [hx] at h
  unfold compileWith
  rcases hy : s.publish p q loader with ⟨y, s''⟩
  cases publishes hy with
  | duplicate hk =>
    simp only [hswept]
    exact .duplicate hk
  | @rejected e hk ha =>
    simp only [hswept]
    refine .failed hk ?_ ?_
    · rintro name rfl
      exact Tree.parse_ne_duplicateFunction q.tokens name (Artifact.ofTokens_eq_error.mp ha)
    · intro a ha'
      rw [ha] at ha'
      cases ha'
  | refused hk ha hl =>
    simp only [hswept]
    refine .failed hk (fun name hn => by cases hn) ?_
    intro a ha'
    cases ha.symm.trans ha'
    rw [hl]
    exact fun hn => by cases hn
  | taken hk ha hl ht =>
    -- the new number is in no entry of the table, so the name is as free as it was
    rw [h.register_load _ hk] at ht
    cases ht
  | @published a table hk ha hl ht =>
    cases SymbolTable.register_eq_ok ht
    exact .published (a := a) hk rfl

section Run

variable {constants : Dictionary String Constant} {os : List Operation}

def Registered (constants : Dictionary String Constant) (os : List Operation) (name : String) : Prop :=
  ∃ earlier o later e, os = earlier ++ o :: later ∧ (run constants earlier).registered? o = some (name, e)

theorem registered_concat {o : Operation} {name : String} : Registered constants (os ++ [o]) name ↔
    Registered constants os name ∨ ∃ e, (run constants os).registered? o = some (name, e) := by
  constructor
  · rintro ⟨earlier, o', later, e, hsplit, hr⟩
    rcases List.eq_nil_or_concat later with rfl | ⟨later, o'', rfl⟩
    · obtain ⟨rfl, ho⟩ := List.append_inj' hsplit rfl
      cases ho
      exact .inr ⟨e, hr⟩
    · rw [List.concat_eq_append, ← List.cons_append, ← List.append_assoc] at hsplit
      obtain ⟨rfl, -⟩ := List.append_inj' hsplit rfl
      exact .inl ⟨earlier, o', later, e, rfl, hr⟩
  · rintro (⟨earlier, o', later, e, rfl, hr⟩ | ⟨e, hr⟩)
    · exact ⟨earlier, o', later ++ [o], e, by simp, hr⟩
    · exact ⟨os, o, [], e, rfl, hr⟩

theorem mem_keys_run (constants : Dictionary String Constant) (os : List Operation) (name : String) :
    name ∈ (run constants os).table.functions.keys ↔ Registered constants os name := by
  induction os using List.reverseRecOn with
  | nil =>
    constructor
    · intro h
      cases h
    · rintro ⟨earlier, o, later, e, hsplit, -⟩
      simp at hsplit
  | append_singleton os o ih =>
    rw [run_concat, functions_after, registered_concat]
    rcases hr : (run constants os).registered? o with _ | ⟨key, e⟩
    · simp [ih]
    · simp only [Dictionary.keys_insert, Option.some.injEq, Prod.mk.injEq, exists_and_left, exists_eq', and_true]
      rw [← ih]
      split
      · rename_i hk
        exact ⟨.inl, fun h => h.elim id (fun he => he ▸ hk)⟩
      · simp [eq_comm]

end Run

end Session

/-- Compilation with a loader changes the symbol table wholly or not at all. After an error the
session is what it was. After a success the name, which stood for nothing before, stands for the new
function; every other name stands for what it did, and the number of names grows just if this one
was never bound. Only a name in use is reported as a duplicate, before the tokens are read, and the
name is still free when the function is installed. -/
theorem compilation_is_atomic (constants : Dictionary String Constant) (os : List Operation) (p : Precision)
    (q : Request) (loader : Loader p) :
    (∀ e s', (Session.run constants os).compileWith p q loader = (.error e, s') → s' = Session.run constants os) ∧
    (∀ f s', (Session.run constants os).compileWith p q loader = (.ok f, s') →
      (Session.run constants os).lookup? q.key = none ∧
      (∃ n, f.entry? = some n ∧ s'.lookup? q.key = some ⟨p, n⟩ ∧
        ∀ g ∈ ((Session.run constants os).realm p).installed, g.id ≠ n) ∧
      (∀ name, name ≠ q.key → s'.lookup? name = (Session.run constants os).lookup? name) ∧
      s'.table.constants = (Session.run constants os).table.constants ∧
      (Session.Registered constants os q.key →
        s'.table.functionCount = (Session.run constants os).table.functionCount) ∧
      (¬ Session.Registered constants os q.key →
        s'.table.functionCount = (Session.run constants os).table.functionCount + 1)) ∧
    (∀ name, ((Session.run constants os).compileWith p q loader).1 = .error (.duplicateFunction name) ↔
      name = q.key ∧ ((Session.run constants os).lookup? q.key).isSome = true) ∧
    ∀ a : Artifact p, (Session.run constants os).lookup? q.key = none →
      Artifact.ofTokens (Session.run constants os).scope q.settings q.parameter q.tokens = .ok a → loader a = .ok () →
        (∃ table, (Session.run constants os).table.register
          ((Session.run constants os).setRealm (((Session.run constants os).realm p).load a)).isLive q.key
          ⟨p, ((Session.run constants os).realm p).nextId⟩ = .ok table) ∧
        ∃ f s', (Session.run constants os).compileWith p q loader = (.ok f, s') := by
  have hs := Session.reachable_run constants os
  have hkeys := Session.mem_keys_run constants os q.key
  generalize Session.run constants os = s at hs hkeys ⊢
  rcases hx : s.compileWith p q loader with ⟨x, s'⟩
  have hc := hs.compiles hx
  refine ⟨?_, ?_, ?_, ?_⟩
  · rintro e _ ⟨⟩
    cases hc with
    | duplicate => rfl
    | failed => rfl
  · rintro f _ ⟨⟩
    cases hc with
    | @published _ a hk hf =>
      have hcount := Dictionary.size_insert s.table.functions q.key ⟨p, (s.realm p).nextId⟩
      refine ⟨hk, ⟨_, hf, ?_, ?_⟩, ?_, rfl, ?_, ?_⟩
      · rw [hs.lookup?_loadAs, if_pos rfl]
      · intro g hg
        exact Nat.ne_of_lt (hs.numbered p g hg)
      · intro name hne
        rw [hs.lookup?_loadAs, if_neg hne]
      · intro hreg
        rwa [if_pos (hkeys.mpr hreg)] at hcount
      · intro hreg
        rwa [if_neg (fun hk => hreg (hkeys.mp hk))] at hcount
  · intro name
    cases hc with
    | duplicate hk => simp [hk, eq_comm]
    | failed hk he => simp [hk, he name]
    | published hk => simp [hk]
  · intro a hk ha hl
    refine ⟨⟨_, hs.register_load a hk _⟩, ?_⟩
    cases hc with
    | duplicate hk' =>
      rw [hk] at hk'
      cases hk'
    | failed _ _ hn => exact absurd hl (hn a ha)
    | published => exact ⟨_, _, rfl⟩

theorem compilation_is_atomic_square : ∃ (os : List Operation) (q : Request) (f : Compiled .double) (s' : Session),
    (Session.run .empty os).compileWith .double q (.accepting .double) = (.ok f, s') ∧
    Session.Registered .empty os q.key ∧ (∃ n, s'.lookup? q.key = some ⟨.double, n⟩) ∧
    s'.table.functionCount = (Session.run .empty os).table.functionCount := by
  let q : Request := ⟨"square", "square", "x", [.identifier "x", .identifier "x", .operator "*"], {}⟩
  let os : List Operation := [.compile .double "f" q (.accepting .double), .release .double "f"]
  have hok : ((Session.run .empty os).compileWith .double q (.accepting .double)).1.isOk = true := by decide +kernel
  have hbound : (Session.run .empty []).registered? (.compile .double "f" q (.accepting .double)) =
      some ("square", ⟨.double, 0⟩) := by decide +kernel
  have hreg : Session.Registered .empty os q.key := ⟨[], _, [.release .double "f"], _, rfl, hbound⟩
  obtain ⟨-, hgiven, -⟩ := compilation_is_atomic .empty os .double q (.accepting .double)
  rcases hx : (Session.run .empty os).compileWith .double q (.accepting .double) with ⟨e | f, s'⟩
  · rw [hx] at hok
    cases hok
  · obtain ⟨-, ⟨n, -, hn, -⟩, -, -, hcount, -⟩ := hgiven f s' hx
    exact ⟨os, q, f, s', hx, hreg, ⟨n, hn⟩, hcount hreg⟩

end Phasor
