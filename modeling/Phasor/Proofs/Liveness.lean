import Phasor.Proofs.Publication

namespace Phasor

variable {p : Precision}

theorem Dictionary.get?_erase {κ α : Type} [DecidableEq κ] (d : Dictionary κ α) (k i : κ) :
    (d.erase k).get? i = if i = k then none else d.get? i := by
  split
  · rename_i hk
    by_contra hsome
    have hget := of_get?_filter (q := fun j => j ≠ k) (Option.isSome_iff_ne_none.mpr hsome)
    simp [hk] at hget
  · rename_i hk
    exact get?_filter d.entries (fun j => j ≠ k) (by simpa using hk)

def Operation.Spares (p : Precision) (id : String) : Operation → Prop
  | .build q k _ => ¬ (q = p ∧ k = id)
  | .compile q k _ _ => ¬ (q = p ∧ k = id)
  | .drop q k => ¬ (q = p ∧ k = id)
  | .putBuiltin q k _ => ¬ (q = p ∧ k = id)
  | _ => True

namespace Realm

def Concerns (r : Realm p) : Operation → Prop
  | .install q k _ => q = p ∧ ∃ f, r.functions.get? k = some (.compiled f)
  | .release q k => q = p ∧ ∃ f, r.functions.get? k = some (.compiled f)
  | _ => False

inductive Becomes (r : Realm p) (o : Operation) : Realm p → Prop
  | runs (ho : ¬ r.Concerns o) (m : Memory p) : Becomes r o { r with memory := m }
  | stored {k : String} {c : Callable p} (ho : ¬ o.Spares p k) (hc : c.entry? = none) : Becomes r o (r.put k c)
  | published {k : String} {c : Callable p} (ho : ¬ o.Spares p k) (hc : c.entry? = some r.nextId) (a : Artifact p) :
      Becomes r o ((r.load a).put k c)
  | dropped {k : String} (ho : ¬ o.Spares p k) : Becomes r o (r.drop k)
  | installed {k : String} {f : Compiled p} {loader : Loader p} (ho : o = .install p k loader)
      (hf : r.functions.get? k = some (.compiled f)) :
      Becomes r o ((r.install f loader).2.2.put k (.compiled (r.install f loader).2.1))
  | released {k : String} {f : Compiled p} (ho : o = .release p k) (hf : r.functions.get? k = some (.compiled f)) :
      Becomes r o ((match f.entry? with | some n => r.release n | none => r).put k (.compiled f.release))

theorem Becomes.refl {r : Realm p} {o : Operation} (ho : ¬ r.Concerns o) : r.Becomes o r := runs ho r.memory

end Realm

namespace Session

variable {s : Session}

theorem becomes_setRealm {q : Precision} {r : Realm q} {o : Operation} (h : (s.realm q).Becomes o r)
    (ho : p ≠ q → ¬ (s.realm p).Concerns o) : (s.realm p).Becomes o ((s.setRealm r).realm p) := by
  by_cases hp : p = q
  · subst hp
    rw [realm_setRealm]
    exact h
  · rw [realm_setRealm_of_ne _ _ hp]
    exact .refl (ho hp)

theorem Reachable.becomes_compile (h : s.Reachable) (q : Precision) (id : String) (request : Request)
    (loader : Loader q) (p : Precision) : (s.realm p).Becomes (.compile q id request loader)
      ((s.after (.compile q id request loader)).realm p) := by
  simp only [Session.after, compile]
  rcases hx : s.compileWith q request loader with ⟨x, s'⟩
  cases h.compiles hx with
  | duplicate => exact .refl not_false
  | failed => exact .refl not_false
  | @published f a hk hf =>
    by_cases hp : p = q
    · subst hp
      simp only [loadAs, realm_setRealm, realm_withTable]
      exact .published (c := .compiled f) (by simp [Operation.Spares]) hf a
    · simp only [realm_setRealm_of_ne _ _ hp, loadAs, realm_withTable]
      exact .refl not_false

theorem becomes_install (s : Session) (q : Precision) (id : String) (loader : Loader q) (p : Precision) :
    (s.realm p).Becomes (.install q id loader) ((s.after (.install q id loader)).realm p) := by
  rcases hf : s.function? q id with _ | (f | f)
  · simp only [after, Session.install, hf]
    apply Realm.Becomes.refl
    rintro ⟨rfl, f, hget⟩
    cases hf.symm.trans hget
  · simp only [after, Session.install, hf]
    exact becomes_setRealm (.installed rfl hf) (fun hp hc => hp hc.1.symm)
  · simp only [after, Session.install, hf]
    apply Realm.Becomes.refl
    rintro ⟨rfl, g, hget⟩
    cases hf.symm.trans hget

theorem becomes_release (s : Session) (q : Precision) (id : String) (p : Precision) :
    (s.realm p).Becomes (.release q id) ((s.after (.release q id)).realm p) := by
  rcases hf : s.function? q id with _ | (f | f)
  · simp only [after, Session.release, hf]
    apply Realm.Becomes.refl
    rintro ⟨rfl, f, hget⟩
    cases hf.symm.trans hget
  · simp only [after, Session.release, hf]
    exact becomes_setRealm (.released rfl hf) (fun hp hc => hp hc.1.symm)
  · simp only [after, Session.release, hf]
    apply Realm.Becomes.refl
    rintro ⟨rfl, g, hget⟩
    cases hf.symm.trans hget

theorem Reachable.becomes (h : s.Reachable) (o : Operation) (p : Precision) :
    (s.realm p).Becomes o ((s.after o).realm p) := by
  cases o with
  | compile q id request loader => exact h.becomes_compile q id request loader p
  | install q id loader => exact becomes_install s q id loader p
  | release q id => exact becomes_release s q id p
  | define name c =>
    simp only [Session.after, define, realm_withTable]
    exact .refl not_false
  | build q id request =>
    rcases hf : s.compiledOf q request with e | f
    · simp only [Session.after, build, hf]
      exact .refl not_false
    · simp only [Session.after, build, hf]
      obtain ⟨a, -, rfl⟩ := compiledOf_eq_ok hf
      exact becomes_setRealm (.stored (by simp [Operation.Spares]) rfl) (fun _ => not_false)
  | register q id key =>
    simp only [Session.after, Session.register]
    split
    · exact .refl not_false
    · split
      · exact .refl not_false
      · split
        · simp only [realm_withTable]
          exact .refl not_false
        · exact .refl not_false
  | invoke q id xs =>
    rcases hf : s.function? q id with _ | c
    · simp only [Session.after, Session.invoke, hf]
      exact .refl not_false
    · simp only [Session.after, Session.invoke, hf]
      obtain ⟨lib, meaning, hm⟩ := h.models q
      obtain ⟨m, -, hall⟩ := hm.invokeAll (backed_function hm hf) xs
      have hidle : ¬ (s.realm q).Concerns (.invoke q id xs) := not_false
      rw [hall]
      exact becomes_setRealm (.runs hidle m) (fun _ => not_false)
  | drop q id => exact becomes_setRealm (.dropped (by simp [Operation.Spares])) (fun _ => not_false)
  | putBuiltin q id f => exact becomes_setRealm (.stored (by simp [Operation.Spares]) rfl) (fun _ => not_false)
  | evaluate q parameter x tokens =>
    have hidle : ¬ (s.realm q).Concerns (.evaluate q parameter x tokens) := not_false
    exact becomes_setRealm (.runs hidle _) (fun _ => not_false)

end Session

namespace Realm

variable {r r' : Realm p} {o : Operation} {k : String} {n : Nat}

def entryOf? (r : Realm p) (k : String) : Option Nat := (r.functions.get? k).bind Callable.entry?

theorem entryOf?_put (r : Realm p) (k : String) (c : Callable p) (i : String) :
    (r.put k c).entryOf? i = if i = k then c.entry? else r.entryOf? i := by
  change ((r.functions.insert k c).get? i).bind _ = _
  rw [Dictionary.get?_insert]
  split
  · rfl
  · rfl

theorem entryOf?_drop (r : Realm p) (k i : String) :
    (r.drop k).entryOf? i = if i = k then none else r.entryOf? i := by
  change ((r.functions.erase k).get? i).bind _ = _
  rw [Dictionary.get?_erase]
  split
  · rfl
  · rfl

theorem mem_held_of_entryOf? (h : r.entryOf? k = some n) : n ∈ r.functions.values.flatMap Callable.held := by
  obtain ⟨c, hc, hn⟩ := Option.bind_eq_some_iff.mp h
  obtain ⟨f, rfl, hs⟩ := Callable.exists_ready_of_entry? hn
  refine List.mem_flatMap.mpr ⟨_, Dictionary.mem_values_of_get? hc, ?_⟩
  simp [Callable.held, Compiled.held, hs]

def Live (r : Realm p) (n : Nat) : Prop := ∃ g ∈ r.installed, g.id = n ∧ g.released = false

theorem live_of_isLive (h : r.isLive n = true) : r.Live n := by
  obtain ⟨g, hg, hlive⟩ := (Option.any_eq_true _ _).mp h
  exact ⟨g, List.mem_of_find?_eq_some hg, by simpa using List.find?_some hg, by simpa using hlive⟩

theorem mem_kept_of_mem_held {held : List Nat} {fs : List Installed} {g : Installed} (hg : g ∈ fs) (hid : g.id ∈ held) :
    g ∈ kept held fs := by
  induction fs generalizing held with
  | nil => cases hg
  | cons f fs ih =>
    rw [kept]
    rcases List.mem_cons.mp hg with rfl | hg
    · rw [if_pos hid]
      exact List.mem_cons_self
    · split
      · exact List.mem_cons_of_mem _ (ih hg (List.mem_append_right _ hid))
      · exact ih hg hid

theorem Live.of_put {c : Callable p} (h : (r.put k c).Live n) : r.Live n := by
  obtain ⟨g, hg, h⟩ := h
  exact ⟨g, kept_subset _ _ hg, h⟩

theorem Live.of_drop (h : (r.drop k).Live n) : r.Live n := by
  obtain ⟨g, hg, h⟩ := h
  exact ⟨g, kept_subset _ _ hg, h⟩

theorem Live.sweep (h : r.Live n) (hk : r.entryOf? k = some n) : r.sweep.Live n := by
  obtain ⟨g, hg, rfl, hlive⟩ := h
  exact ⟨g, mem_kept_of_mem_held hg (mem_held_of_entryOf? hk), rfl, hlive⟩

theorem live_load_nextId (r : Realm p) (a : Artifact p) : (r.load a).Live r.nextId :=
  ⟨_, List.mem_cons_self, rfl, rfl⟩

theorem Live.load (h : r.Live n) (a : Artifact p) : (r.load a).Live n := by
  obtain ⟨g, hg, h⟩ := h
  exact ⟨g, List.mem_cons_of_mem _ hg, h⟩

theorem Live.of_load {a : Artifact p} (h : (r.load a).Live n) (hn : n ≠ r.nextId) : r.Live n := by
  obtain ⟨g, hg, rfl, hlive⟩ := h
  rcases List.mem_cons.mp hg with rfl | hg
  · exact absurd rfl hn
  · exact ⟨g, hg, rfl, hlive⟩

theorem Live.release (h : r.Live n) {m : Nat} (hm : n ≠ m) : (r.release m).Live n := by
  obtain ⟨g, hg, rfl, hlive⟩ := h
  refine ⟨_, List.mem_map_of_mem hg, ?_⟩
  rw [if_neg hm]
  exact ⟨rfl, hlive⟩

theorem Live.of_release {m : Nat} (h : (r.release m).Live n) : r.Live n ∧ n ≠ m := by
  obtain ⟨g', hg', rfl, hlive⟩ := h
  obtain ⟨g, hg, rfl⟩ := List.mem_map.mp hg'
  by_cases hid : g.id = m
  · simp [hid] at hlive
  · rw [if_neg hid] at hlive ⊢
    exact ⟨⟨g, hg, rfl, hlive⟩, hid⟩

inductive Installs (r : Realm p) (f : Compiled p) (loader : Loader p) :
    Except Error Unit × Compiled p × Realm p → Prop
  | accepted {a : Artifact p} (hs : f.stage = .built a) (hl : loader a = .ok ()) :
      Installs r f loader (.ok (), { f with stage := .ready r.nextId }, r.load a)
  | refused {a : Artifact p} {message : String} (hs : f.stage = .built a) (hl : loader a = .error message) :
      Installs r f loader (.error (.installRejected (.refused message)), { f with stage := .spent }, r)
  | ready {n : Nat} (hs : f.stage = .ready n) : Installs r f loader (.ok (), f, r)
  | spent (hs : f.stage = .spent) : Installs r f loader (.error (.installRejected (.wasRefused f.key)), f, r)
  | released (hs : f.stage = .released) : Installs r f loader (.error (.installRejected (.wasReleased f.key)), f, r)

theorem installs (r : Realm p) (f : Compiled p) (loader : Loader p) : r.Installs f loader (r.install f loader) := by
  unfold Realm.install Compiled.install
  rcases hs : f.stage with a | _ | n | _
  · simp only
    rcases hl : loader a with message | _
    · exact .refused hs hl
    · exact .accepted hs hl
  · exact .spent hs
  · exact .ready hs
  · exact .released hs

theorem Becomes.live (hb : r.Becomes o r') (hn : n < r.nextId) (h : r'.Live n) : r.Live n := by
  cases hb with
  | runs => exact h
  | stored => exact h.of_put
  | dropped => exact h.of_drop
  | published => exact h.of_put.of_load (Nat.ne_of_lt hn)
  | @installed k f loader =>
    have hlive := h.of_put
    have hi := r.installs f loader
    generalize r.install f loader = x at hi hlive
    cases hi with
    | accepted => exact hlive.of_load (Nat.ne_of_lt hn)
    | _ => exact hlive
  | @released k f =>
    have hlive := h.of_put
    split at hlive
    · exact hlive.of_release.1
    · exact hlive

structure Owned (r : Realm p) : Prop where
  live : ∀ k n, r.entryOf? k = some n → r.Live n
  distinct : ∀ k i n, r.entryOf? k = some n → r.entryOf? i = some n → k = i

theorem owned_put {c : Callable p} (hlive : ∀ i n, i ≠ k → r.entryOf? i = some n → r.Live n)
    (hdistinct : ∀ i j n, i ≠ k → j ≠ k → r.entryOf? i = some n → r.entryOf? j = some n → i = j)
    (hc : ∀ n, c.entry? = some n → r.Live n ∧ ∀ i, i ≠ k → r.entryOf? i ≠ some n) : (r.put k c).Owned := by
  constructor
  · intro i n hi
    have hswept : ({ r with functions := r.functions.insert k c } : Realm p).Live n → (r.put k c).Live n :=
      fun h => h.sweep hi
    apply hswept
    rw [entryOf?_put] at hi
    split at hi
    · exact (hc n hi).1
    · rename_i hik
      exact hlive i n hik hi
  · intro i j n hi hj
    rw [entryOf?_put] at hi hj
    split at hi
    · rename_i hik
      split at hj
      · rename_i hjk
        exact hik.trans hjk.symm
      · rename_i hjk
        exact absurd hj ((hc n hi).2 j hjk)
    · rename_i hik
      split at hj
      · exact absurd hi ((hc n hj).2 i hik)
      · rename_i hjk
        exact hdistinct i j n hik hjk hi hj

theorem Becomes.owned (hb : r.Becomes o r') (h : r.Owned) (hlt : ∀ k n, r.entryOf? k = some n → n < r.nextId) :
    r'.Owned := by
  have hload (k : String) {c : Callable p} (hc : c.entry? = some r.nextId) (a : Artifact p) :
      ((r.load a).put k c).Owned := by
    apply owned_put
    · intro i n _ hi
      exact (h.live i n hi).load a
    · intro i j n _ _
      exact h.distinct i j n
    · rintro n hn
      obtain rfl := Option.some.inj (hc.symm.trans hn)
      refine ⟨live_load_nextId r a, ?_⟩
      intro i _ hi
      exact Nat.lt_irrefl _ (hlt i _ hi)
  have hput (k : String) {c : Callable p} (hc : ∀ n, c.entry? = some n → r.entryOf? k = some n) :
      (r.put k c).Owned := by
    apply owned_put
    · intro i n _
      exact h.live i n
    · intro i j n _ _
      exact h.distinct i j n
    · intro n hn
      refine ⟨h.live k n (hc n hn), ?_⟩
      intro i hik hi
      exact hik (h.distinct i k n hi (hc n hn))
  cases hb with
  | runs => exact ⟨h.live, h.distinct⟩
  | stored _ hc => exact hput _ (fun n hn => by cases hc.symm.trans hn)
  | published _ hc a => exact hload _ hc a
  | @dropped k =>
    constructor
    · intro i n hi
      have hold : r.entryOf? i = some n := by
        rw [entryOf?_drop] at hi
        split at hi
        · cases hi
        · exact hi
      have hlive : ({ r with functions := r.functions.erase k } : Realm p).Live n := h.live i n hold
      exact hlive.sweep hi
    · intro i j n hi hj
      rw [entryOf?_drop] at hi hj
      split at hi
      · cases hi
      · split at hj
        · cases hj
        · exact h.distinct i j n hi hj
  | @installed k f loader ho hf =>
    have hi := r.installs f loader
    generalize r.install f loader = x at hi
    cases hi with
    | accepted => exact hload k rfl _
    | refused => exact hput k (fun n hn => by cases hn)
    | _ =>
      apply hput
      intro n hn
      rw [entryOf?, hf]
      exact hn
  | @released k f ho hf =>
    rcases he : f.entry? with _ | m
    · exact hput k (fun n hn => by cases hn)
    · have hm : r.entryOf? k = some m := by
        rw [entryOf?, hf]
        exact he
      apply owned_put
      · intro i n hik hi
        apply (h.live i n hi).release
        rintro rfl
        exact hik (h.distinct i k n hi hm)
      · intro i j n _ _
        exact h.distinct i j n
      · intro n hn
        cases hn

end Realm

namespace Session

variable {s : Session}

theorem Reachable.isLive_iff (h : s.Reachable) {n : Nat} : (s.realm p).isLive n = true ↔ (s.realm p).Live n := by
  constructor
  · exact Realm.live_of_isLive
  · rintro ⟨g, hg, rfl, hlive⟩
    obtain ⟨lib, meaning, hm⟩ := h.models p
    unfold Realm.isLive Realm.find?
    rw [hm.installed] at hg ⊢
    obtain ⟨f, hf, rfl⟩ := List.mem_map.mp hg
    rw [show f.installed.id = f.id from rfl, hm.linked.find? hf]
    simpa using hlive

theorem Reachable.entryOf?_lt (h : s.Reachable) {k : String} {n : Nat} (hn : (s.realm p).entryOf? k = some n) :
    n < (s.realm p).nextId := by
  obtain ⟨c, hc, hentry⟩ := Option.bind_eq_some_iff.mp hn
  obtain ⟨f, rfl, hs⟩ := Callable.exists_ready_of_entry? hentry
  exact h.ready_lt hc hs

theorem Reachable.owned (h : s.Reachable) (p : Precision) : (s.realm p).Owned := by
  induction h with
  | start constants =>
    constructor
    · intro k n hn
      cases p <;> cases hn
    · intro k i n hn
      cases p <;> cases hn
  | after h o ih => exact (h.becomes o p).owned ih (fun _ _ => h.entryOf?_lt)

theorem Reachable.not_live_later (h : s.Reachable) (os : List Operation) {n : Nat} (hn : n < (s.realm p).nextId)
    (hl : ¬ (s.realm p).Live n) : ((os.foldl Session.after s).realm p).isLive n = false := by
  induction os generalizing s with
  | nil => exact Bool.eq_false_iff.mpr (fun hlive => hl (Realm.live_of_isLive hlive))
  | cons o os ih =>
    apply ih (h.after o) (Nat.lt_of_lt_of_le hn (effect_after h o p).step.nextId)
    exact fun hlive => hl ((h.becomes o p).live hn hlive)

end Session

end Phasor
