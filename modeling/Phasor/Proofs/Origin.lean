import Mathlib.Data.List.Induction
import Phasor.Proofs.History
import Phasor.Proofs.Stores

namespace Phasor

variable {p : Precision}

def Arena.shape {α : Type} (a : Arena α) : Nat × List α := (a.slots.length, a.pinned)

namespace Memory

def shape (m : Memory p) (id : Nat) : Option (Nat × List p.Value) :=
  (m.arenas.get? id).map Arena.shape

theorem shape_of_insert {m m' : Memory p} {id : Nat} {a b : Arena p.Value} (ha : m.arenas.get? id = some a)
    (hs : b.shape = a.shape) (h : m'.arenas = m.arenas.insert id b) : m'.shape = m.shape := by
  funext k
  by_cases hk : k = id
  · subst hk
    simp [shape, h, Dictionary.get?_insert, ha, hs]
  · simp [shape, h, Dictionary.get?_insert, hk]

theorem shape_of_arenas {m m' : Memory p} (h : m'.arenas = m.arenas) : m'.shape = m.shape := by
  funext k
  simp only [shape, h]

theorem shape_of_store? {m m' : Memory p} {owner : Nat} {z : p.Value} {l : Place}
    (h : m.store? owner z = some (l, m')) : m'.shape = m.shape := by
  obtain ⟨r, hr, -, -, harenas⟩ := store?_eq_some h
  exact shape_of_insert hr (by simp [Arena.shape]) harenas

theorem shape_resetCursor (m : Memory p) (id : Nat) : (m.resetCursor id).shape = m.shape := by
  unfold resetCursor
  split
  · rename_i a ha
    exact shape_of_insert (b := a.reset) ha rfl rfl
  · rfl

end Memory

namespace Library

variable {lib : Library p}

theorem shape_of_call {id : Nat} {ws : List Word} {m m' : Memory p} {l : Place}
    (hw : ws.length = p.parameters.length) (h : Machine.call lib.functions id ws m = some (l, m')) :
    m'.shape = m.shape := by
  apply call_induct (Q := fun m m' _ => m'.shape = m.shape) (fun _ => rfl) ?_ ?_ hw h
  · intro m₁ m₂ m₃ _ _ h₁ h₂
    exact h₂.trans h₁
  · intro owner _ m₁ z l₁ m₂ hz
    exact Memory.shape_of_store? hz

theorem shape_of_enter {id : Nat} {x z : p.Value} {m m' : Memory p}
    (h : Machine.enter lib.functions id x m = some (z, m')) : m'.shape = m.shape := by
  simp only [Machine.enter, Option.bind_eq_bind, Option.bind_eq_some_iff] at h
  obtain ⟨⟨l, m₁⟩, hcall, w, -, he⟩ := h
  cases he
  have hw := (Machine.passes_passArgument [] x m).length
  rw [shape_of_call hw hcall, Memory.shape_of_arenas (Machine.passArgument_arenas x m)]

end Library

namespace Eval

section Keeps

variable {J : Memory p → Prop} {functions : List Installed}
  (h : ∀ id x m z m', J m → Machine.enter functions id x m = some (z, m') → J m')

include h in
theorem keeps_enter (id : Nat) (x : p.Value) : Keeps J (enter functions id x) := by
  refine Keeps.get_bind (fun m hm => ?_)
  cases he : Machine.enter functions id x m with
  | none => exact hm
  | some r => exact h id x m r.1 r.2 hm he

include h in
theorem keeps_token (scope : Scope) (parameter : String) (x : p.Value) (stack : List p.Value) (t : Token) :
    Keeps J (token scope functions parameter x stack t) := by
  cases t with
  | number text => exact (Keeps.lift _).bind (fun _ => .pure _)
  | identifier name =>
    simp only [token]
    split
    · exact .pure _
    · exact (Keeps.lift _).bind (fun _ => .pure _)
  | operator symbol =>
    simp only [token]
    split
    · exact .pure _
    · exact .pure _
    · exact .throw _
    · exact .throw _
  | call name =>
    refine (Keeps.lift _).bind (fun id => ?_)
    cases stack with
    | nil => exact .throw _
    | cons z rest => exact (keeps_enter h id z).bind (fun _ => .pure _)

include h in
theorem keeps_expression (scope : Scope) (parameter : String) (x : p.Value) (tokens : List Token) :
    Keeps J (expression scope functions parameter x tokens) := by
  unfold expression
  split
  case' isTrue => refine (Keeps.throw _).bind (fun _ => ?_)
  all_goals
    refine (Keeps.foldlM (keeps_token h scope parameter x) tokens []).bind (fun stack => ?_)
    split
    · exact .pure _
    · exact .throw _

end Keeps

end Eval

namespace Realm

variable {r r' : Realm p} {lib : Library p}

theorem shape_invokeAll (h : r.installed = lib.functions) (c : Callable p) (xs : List p.Value) :
    ∃ m, (r.invokeAll c xs).2 = { r with memory := m } ∧ m.shape = r.memory.shape := by
  induction xs generalizing r with
  | nil => exact ⟨r.memory, rfl, rfl⟩
  | cons x xs ih =>
    have hx : ∃ m, (r.invoke c x).2 = { r with memory := m } ∧ m.shape = r.memory.shape := by
      unfold invoke
      split
      · exact ⟨r.memory, rfl, rfl⟩
      · split
        · exact ⟨r.memory, rfl, rfl⟩
        · exact ⟨r.memory, rfl, rfl⟩
        · exact ⟨r.memory, rfl, rfl⟩
        · split
          · rename_i id _ z m he
            rw [h] at he
            exact ⟨m, rfl, (Library.shape_of_enter he).trans (Memory.shape_resetCursor _ _)⟩
          · exact ⟨r.memory, rfl, rfl⟩
    obtain ⟨m₁, h₁, hs₁⟩ := hx
    obtain ⟨m₂, h₂, hs₂⟩ := ih (r := { r with memory := m₁ }) h
    exact ⟨m₂, by simp only [invokeAll, h₁, h₂], hs₂.trans hs₁⟩

theorem kept_subset (held : List Nat) (fs : List Installed) : kept held fs ⊆ fs := by
  induction fs generalizing held with
  | nil => exact List.Subset.refl _
  | cons f fs ih =>
    rw [kept]
    split
    · exact List.cons_subset_cons f (ih _)
    · exact List.subset_cons_of_subset f (ih _)

def Pending (r : Realm p) (a : Artifact p) : Prop :=
  ∃ f, Callable.compiled f ∈ r.functions.values ∧ f.stage = .built a

structure Carries (r : Realm p) (g : Installed) (a : Artifact p) : Prop where
  code : g.code = a.code
  callees : g.callees = a.callees
  shape : r.memory.shape g.id = some (a.arenaSize, a.pinned)

structure Inherits (r : Realm p) (g : Installed) (r' : Realm p) (g' : Installed) : Prop where
  id : g'.id = g.id
  code : g'.code = g.code
  callees : g'.callees = g.callees
  shape : r'.memory.shape g'.id = r.memory.shape g.id

theorem Inherits.carries {g g' : Installed} {a : Artifact p} (h : Inherits r g r' g') (hc : r.Carries g a) :
    r'.Carries g' a :=
  ⟨h.code.trans hc.code, h.callees.trans hc.callees, h.shape.trans hc.shape⟩

theorem Inherits.trans {r₁ r₂ : Realm p} {g g₁ g₂ : Installed} (h : Inherits r g r₁ g₁) (h' : Inherits r₁ g₁ r₂ g₂) :
    Inherits r g r₂ g₂ :=
  ⟨h'.id.trans h.id, h'.code.trans h.code, h'.callees.trans h.callees, h'.shape.trans h.shape⟩

/-- What can become of a realm, where `offered` tells what is built meanwhile. Numbers are not given
twice, and what is installed newly was waiting for it or was offered. -/
structure Step (offered : Artifact p → Prop) (r r' : Realm p) : Prop where
  nextId : r.nextId ≤ r'.nextId
  pending : ∀ a, r'.Pending a → r.Pending a ∨ offered a
  installed : ∀ g' ∈ r'.installed, (∃ g ∈ r.installed, Inherits r g r' g') ∨
    r.nextId ≤ g'.id ∧ ∃ a, (r.Pending a ∨ offered a) ∧ r'.Carries g' a

namespace Step

variable {offered : Artifact p → Prop}

theorem refl (r : Realm p) : Step offered r r :=
  ⟨Nat.le_refl _, fun _ h => .inl h, fun g hg => .inl ⟨g, hg, rfl, rfl, rfl, rfl⟩⟩

theorem trans {r₁ r₂ : Realm p} (h : Step offered r r₁) (h' : Step offered r₁ r₂) : Step offered r r₂ := by
  have hpending (a : Artifact p) (ha : r₁.Pending a ∨ offered a) : r.Pending a ∨ offered a := by
    rcases ha with ha | ha
    · exact h.pending a ha
    · exact .inr ha
  refine ⟨Nat.le_trans h.nextId h'.nextId, fun a ha => hpending a (h'.pending a ha), ?_⟩
  intro g₂ hg₂
  rcases h'.installed g₂ hg₂ with ⟨g₁, hg₁, hi⟩ | ⟨hn, a, ha, hc⟩
  · rcases h.installed g₁ hg₁ with ⟨g, hg, hi₁⟩ | ⟨hn, a, ha, hc⟩
    · exact .inl ⟨g, hg, hi₁.trans hi⟩
    · exact .inr ⟨hi.id ▸ hn, a, ha, hi.carries hc⟩
  · exact .inr ⟨Nat.le_trans h.nextId hn, a, hpending a ha, hc⟩

theorem of_memory {m : Memory p} (h : m.shape = r.memory.shape) : Step offered r { r with memory := m } := by
  refine ⟨Nat.le_refl _, fun _ h => .inl h, ?_⟩
  intro g hg
  exact .inl ⟨g, hg, rfl, rfl, rfl, congrFun h g.id⟩

theorem sweep (r : Realm p) : Step offered r r.sweep := by
  refine ⟨Nat.le_refl _, fun _ h => .inl h, ?_⟩
  intro g hg
  refine .inl ⟨g, kept_subset _ _ hg, rfl, rfl, rfl, ?_⟩
  have hkept : r.sweep.installed.any (·.id = g.id) = true := List.any_eq_true.mpr ⟨g, hg, by simp⟩
  have hget := Dictionary.get?_filter r.memory.arenas.entries (fun k => r.sweep.installed.any (·.id = k)) hkept
  exact congrArg (Option.map Arena.shape) hget

theorem of_functions {functions : Dictionary String (Callable p)}
    (h : ∀ f a, Callable.compiled f ∈ functions.values → f.stage = .built a → r.Pending a ∨ offered a) :
    Step offered r { r with functions := functions } := by
  refine ⟨Nat.le_refl _, ?_, fun g hg => .inl ⟨g, hg, rfl, rfl, rfl, rfl⟩⟩
  rintro a ⟨f, hf, ha⟩
  exact h f a hf ha

theorem load {a : Artifact p} (hn : ∀ g ∈ r.installed, g.id < r.nextId) (ha : r.Pending a ∨ offered a) :
    Step offered r (r.load a) := by
  refine ⟨Nat.le_succ _, fun _ h => .inl h, ?_⟩
  intro g hg
  rcases List.mem_cons.mp hg with rfl | hg
  · refine .inr ⟨Nat.le_refl _, a, ha, rfl, rfl, ?_⟩
    simp [Realm.load, Memory.shape, Dictionary.get?_insert, Artifact.arena, Arena.provision, Arena.shape]
  · have hne : g.id ≠ r.nextId := Nat.ne_of_lt (hn g hg)
    refine .inl ⟨g, hg, rfl, rfl, rfl, ?_⟩
    simp [Realm.load, Memory.shape, Dictionary.get?_insert, hne]

theorem release (r : Realm p) (n : Nat) : Step offered r (r.release n) := by
  refine ⟨Nat.le_refl _, fun _ h => .inl h, ?_⟩
  intro g' hg'
  obtain ⟨g, hg, rfl⟩ := List.mem_map.mp hg'
  refine .inl ⟨g, hg, ?_⟩
  split
  · exact ⟨rfl, rfl, rfl, rfl⟩
  · exact ⟨rfl, rfl, rfl, rfl⟩

end Step

end Realm

namespace Dictionary

variable {κ α : Type} [DecidableEq κ]

theorem mem_keys {d : Dictionary κ α} {k : κ} : k ∈ d.keys ↔ (d.get? k).isSome = true := by
  obtain ⟨es⟩ := d
  unfold keys get?
  induction es with
  | nil => simp
  | cons e es ih =>
    obtain ⟨i, a⟩ := e
    by_cases hk : k = i
    · simp [hk]
    · simp [hk, beq_false_of_ne hk, List.lookup_cons, ih]

theorem keys_insert (d : Dictionary κ α) (k : κ) (a : α) :
    (d.insert k a).keys = if k ∈ d.keys then d.keys else d.keys ++ [k] := by
  unfold insert contains
  by_cases hk : k ∈ d.keys
  · rw [if_pos (mem_keys.mp hk), if_pos hk]
    unfold keys
    rw [List.map_map]
    apply List.map_congr_left
    intro e _
    by_cases he : e.1 = k <;> simp [he]
  · rw [if_neg (fun h => hk (mem_keys.mpr h)), if_neg hk]
    simp [keys]

theorem nodup_keys_insert {d : Dictionary κ α} (h : d.keys.Nodup) (k : κ) (a : α) : (d.insert k a).keys.Nodup := by
  rw [keys_insert]
  split
  · exact h
  · rename_i hk
    refine List.nodup_append.mpr ⟨h, by simp, ?_⟩
    rintro i hi j hj rfl
    exact hk (List.mem_singleton.mp hj ▸ hi)

theorem nodup_keys_erase {d : Dictionary κ α} (h : d.keys.Nodup) (k : κ) : (d.erase k).keys.Nodup := by
  unfold erase keys
  exact (List.filter_sublist.map Prod.fst).nodup h

end Dictionary

namespace Realm

inductive Effect (offered : Artifact p → Prop) (r : Realm p) : Realm p → Prop
  | runs {m : Memory p} (hm : m.shape = r.memory.shape) : Effect offered r { r with memory := m }
  | swept {r₁ : Realm p} (hs : Step offered r r₁) (hk : r.functions.keys.Nodup → r₁.functions.keys.Nodup) :
      Effect offered r r₁.sweep

namespace Effect

variable {offered : Artifact p → Prop} {r r₁ : Realm p}

theorem refl (r : Realm p) : Effect offered r r := runs rfl

theorem step (h : Effect offered r r₁) : Step offered r r₁ := by
  cases h with
  | runs hm => exact .of_memory hm
  | swept hs hk => exact hs.trans (.sweep _)

theorem put (hs : Step offered r r₁) (hf : r₁.functions = r.functions) {c : Callable p}
    (hc : ∀ f a, c = .compiled f → f.stage = .built a → r.Pending a ∨ offered a) (id : String) :
    Effect offered r (r₁.put id c) := by
  have hpending (a : Artifact p) (h : r.Pending a) : r₁.Pending a := by
    unfold Pending at *
    rwa [hf]
  refine swept (hs.trans (.of_functions ?_)) ?_
  · intro f a hmem ha
    rcases Dictionary.mem_values_insert hmem with hmem | hmem
    · exact (hc f a hmem.symm ha).imp_left (hpending a)
    · exact .inl ⟨f, hmem, ha⟩
  · intro hk
    exact Dictionary.nodup_keys_insert (hf ▸ hk) _ _

theorem drop (r : Realm p) (id : String) : Effect offered r (r.drop id) := by
  refine swept (.of_functions ?_) (fun hk => Dictionary.nodup_keys_erase hk id)
  intro f a hmem ha
  exact .inl ⟨f, Dictionary.mem_values_erase hmem, ha⟩

end Effect

end Realm

def Operation.Requests (p : Precision) (q : Request) (o : Operation) : Prop :=
  (∃ id, o = .build p id q) ∨ ∃ id loader, o = .compile p id q loader

namespace Session

variable {s : Session}

def Offers (s : Session) (o : Operation) (a : Artifact p) : Prop :=
  ∃ q, o.Requests p q ∧ Artifact.ofTokens s.scope q.settings q.parameter q.tokens = .ok a

theorem effect_setRealm {o : Operation} {q : Precision} {r : Realm q}
    (h : Realm.Effect (s.Offers o) (s.realm q) r) (p : Precision) :
    Realm.Effect (s.Offers o) (s.realm p) ((s.setRealm r).realm p) := by
  by_cases hp : p = q
  · subst hp
    rw [realm_setRealm]
    exact h
  · rw [realm_setRealm_of_ne _ _ hp]
    exact .refl _

theorem Reachable.numbered (h : s.Reachable) (p : Precision) :
    ∀ g ∈ (s.realm p).installed, g.id < (s.realm p).nextId := by
  obtain ⟨lib, meaning, hm⟩ := h.models p
  intro g hg
  exact hm.numbered g.id (hm.mem_ids.mpr ⟨g, hg, rfl⟩)

theorem effect_build (s : Session) (q : Precision) (id : String) (request : Request) (p : Precision) :
    Realm.Effect (s.Offers (.build q id request)) (s.realm p) ((s.after (.build q id request)).realm p) := by
  rcases hf : s.compiledOf q request with e | f
  · simp only [after, build, hf]
    exact .refl _
  · simp only [after, build, hf]
    apply effect_setRealm
    apply Realm.Effect.put (.refl _) rfl
    intro f' a hf' ha
    obtain ⟨b, hb, rfl⟩ := compiledOf_eq_ok hf
    cases hf'
    cases ha
    exact .inr ⟨request, .inl ⟨id, rfl⟩, hb⟩

theorem effect_publish (h : s.Reachable) (q : Precision) (id : String) (request : Request) (loader : Loader q) :
    Realm.Step (s.Offers (.compile q id request loader)) (s.realm q) ((s.publish q request loader).2.realm q) ∧
      ((s.publish q request loader).2.realm q).functions = (s.realm q).functions ∧
      ∀ p, p ≠ q → (s.publish q request loader).2.realm p = s.realm p := by
  have hload {a : Artifact q}
      (ha : Artifact.ofTokens s.scope request.settings request.parameter request.tokens = .ok a) :
      Realm.Step (s.Offers (.compile q id request loader)) (s.realm q) ((s.realm q).load a) :=
    .load (h.numbered q) (.inr ⟨request, .inr ⟨id, loader, rfl⟩, ha⟩)
  rcases hx : s.publish q request loader with ⟨x, s'⟩
  cases publishes hx with
  | duplicate => exact ⟨.refl _, rfl, fun _ _ => rfl⟩
  | rejected => exact ⟨.refl _, rfl, fun _ _ => rfl⟩
  | refused => exact ⟨.refl _, rfl, fun _ _ => rfl⟩
  | taken _ ha =>
    rw [realm_setRealm]
    exact ⟨hload ha, rfl, fun p hne => realm_setRealm_of_ne _ _ hne⟩
  | published _ ha =>
    simp only [realm_withTable, realm_setRealm]
    exact ⟨hload ha, rfl, fun p hne => realm_setRealm_of_ne _ _ hne⟩

theorem effect_compile (h : s.Reachable) (q : Precision) (id : String) (request : Request) (loader : Loader q)
    (p : Precision) : Realm.Effect (s.Offers (.compile q id request loader)) (s.realm p)
      ((s.after (.compile q id request loader)).realm p) := by
  obtain ⟨hstep, hfunctions, hother⟩ := effect_publish h q id request loader
  simp only [after, compile, compileWith]
  generalize hx : s.publish q request loader = x at hstep hfunctions hother ⊢
  have hfinal {r : Realm q} (he : Realm.Effect (s.Offers (.compile q id request loader)) (s.realm q) r) :
      Realm.Effect (s.Offers (.compile q id request loader)) (s.realm p) ((x.2.setRealm r).realm p) := by
    by_cases hp : p = q
    · subst hp
      rw [realm_setRealm]
      exact he
    · rw [realm_setRealm_of_ne _ _ hp, hother p hp]
      exact .refl _
  obtain ⟨e | f, s'⟩ := x
  · apply hfinal
    exact .swept hstep (fun hk => hfunctions ▸ hk)
  · apply hfinal
    apply Realm.Effect.put hstep hfunctions
    intro f' a hf' ha
    cases publishes hx with
    | published => cases hf'; cases ha

theorem effect_install (h : s.Reachable) (q : Precision) (id : String) (loader : Loader q) (p : Precision) :
    Realm.Effect (s.Offers (.install q id loader)) (s.realm p) ((s.after (.install q id loader)).realm p) := by
  rcases hf : s.function? q id with _ | (f | f)
  · simp only [after, Session.install, hf]
    exact .refl _
  · simp only [after, Session.install, hf]
    apply effect_setRealm
    unfold Realm.install Compiled.install
    rcases hs : f.stage with a | _ | n | _
    · have hpending : (s.realm q).Pending a := ⟨f, Dictionary.mem_values_of_get? hf, hs⟩
      simp only
      rcases hl : loader a with message | _
      · exact Realm.Effect.put (.refl _) rfl (fun f' a' hf' ha' => by cases hf'; cases ha') id
      · exact Realm.Effect.put (.load (h.numbered q) (.inl hpending)) rfl
          (fun f' a' hf' ha' => by cases hf'; cases ha') id
    all_goals
      apply Realm.Effect.put (.refl _) rfl
      intro f' a' hf' ha'
      cases hf'
      rw [hs] at ha'
      cases ha'
  · simp only [after, Session.install, hf]
    exact .refl _

theorem effect_register (s : Session) (q : Precision) (id key : String) (p : Precision) :
    Realm.Effect (s.Offers (.register q id key)) (s.realm p) ((s.after (.register q id key)).realm p) := by
  simp only [after, Session.register]
  split
  · exact .refl _
  · split
    · exact .refl _
    · split
      · simp only [realm_withTable]
        exact .refl _
      · exact .refl _

theorem effect_release (s : Session) (q : Precision) (id : String) (p : Precision) :
    Realm.Effect (s.Offers (.release q id)) (s.realm p) ((s.after (.release q id)).realm p) := by
  rcases hf : s.function? q id with _ | (f | f)
  · simp only [after, Session.release, hf]
    exact .refl _
  · simp only [after, Session.release, hf]
    apply effect_setRealm
    have hnone : ∀ f' a, Callable.compiled f.release = .compiled f' → f'.stage = .built a →
        (s.realm q).Pending a ∨ s.Offers (.release q id) a := by
      intro f' a hf' ha
      cases hf'
      cases ha
    rcases he : f.entry? with _ | n
    · exact .put (.refl _) rfl hnone id
    · exact .put (.release _ n) rfl hnone id
  · simp only [after, Session.release, hf]
    exact .refl _

theorem effect_after (h : s.Reachable) (o : Operation) (p : Precision) :
    Realm.Effect (s.Offers o) (s.realm p) ((s.after o).realm p) := by
  cases o with
  | define name c =>
    simp only [after, define, realm_withTable]
    exact .refl _
  | build q id request => exact effect_build s q id request p
  | compile q id request loader => exact effect_compile h q id request loader p
  | install q id loader => exact effect_install h q id loader p
  | register q id key => exact effect_register s q id key p
  | invoke q id xs =>
    simp only [after, Session.invoke]
    split
    · exact .refl _
    · rename_i c hf
      apply effect_setRealm
      obtain ⟨lib, meaning, hm⟩ := h.models q
      obtain ⟨m, hall, hshape⟩ := Realm.shape_invokeAll hm.installed c xs
      rw [hall]
      exact .runs hshape
  | release q id => exact effect_release s q id p
  | drop q id => exact effect_setRealm (.drop _ id) p
  | putBuiltin q id f =>
    apply effect_setRealm
    exact .put (.refl _) rfl (fun f' a hf' => by cases hf') id
  | evaluate q parameter x tokens =>
    apply effect_setRealm
    obtain ⟨lib, meaning, hm⟩ := h.models q
    refine .runs (Eval.keeps_expression (J := fun m => m.shape = (s.realm q).memory.shape) ?_ s.scope parameter x tokens
      (s.realm q).memory rfl)
    intro id z m w m' hm' he
    rw [hm.installed] at he
    exact (Library.shape_of_enter he).trans hm'

def run (constants : Dictionary String Constant) (os : List Operation) : Session :=
  os.foldl after { table := ⟨constants, .empty⟩ }

section Run

variable {constants : Dictionary String Constant} {os : List Operation}

theorem run_concat (constants : Dictionary String Constant) (os : List Operation) (o : Operation) :
    run constants (os ++ [o]) = (run constants os).after o := by
  simp [run]

theorem reachable_run (constants : Dictionary String Constant) (os : List Operation) :
    (run constants os).Reachable := by
  induction os using List.reverseRecOn with
  | nil => exact .start constants
  | append_singleton os o ih =>
    rw [run_concat]
    exact ih.after o

/-- An operation of the run built the artifact, while `bound` was not yet given as a number, and the
functions that it calls were installed then. -/
def BuiltIn (constants : Dictionary String Constant) (os : List Operation) (bound : Nat) (a : Artifact p) : Prop :=
  ∃ earlier o later, os = earlier ++ o :: later ∧ (run constants earlier).Offers o a ∧
    ((run constants earlier).realm p).nextId ≤ bound ∧
    ∀ id ∈ a.callees, ∃ g ∈ ((run constants earlier).realm p).installed, g.id = id

theorem BuiltIn.mono {bound bound' : Nat} {a : Artifact p} (h : BuiltIn constants os bound a) (hb : bound ≤ bound')
    (o : Operation) : BuiltIn constants (os ++ [o]) bound' a := by
  obtain ⟨earlier, o', later, rfl, ho, hn, hc⟩ := h
  exact ⟨earlier, o', later ++ [o], by simp, ho, Nat.le_trans hn hb, hc⟩

theorem BuiltIn.callees_lt {bound : Nat} {a : Artifact p} (h : BuiltIn constants os bound a) :
    ∀ id ∈ a.callees, id < bound := by
  obtain ⟨earlier, o, later, -, -, hn, hc⟩ := h
  intro id hid
  obtain ⟨g, hg, rfl⟩ := hc id hid
  exact Nat.lt_of_lt_of_le ((reachable_run constants earlier).numbered p g hg) hn

theorem builtIn_offers {a : Artifact p} {o : Operation} (h : (run constants os).Offers o a) :
    BuiltIn constants (os ++ [o]) ((run constants os).realm p).nextId a := by
  refine ⟨os, o, [], rfl, h, Nat.le_refl _, ?_⟩
  obtain ⟨q, -, ha⟩ := h
  obtain ⟨lib, meaning, hm⟩ := (reachable_run constants os).models p
  intro id hid
  exact hm.mem_ids.mp (hm.ready.calls_mem ha id hid)

structure Traced (constants : Dictionary String Constant) (os : List Operation) (p : Precision) : Prop where
  pending : ∀ a : Artifact p, ((run constants os).realm p).Pending a →
    BuiltIn constants os ((run constants os).realm p).nextId a
  installed : ∀ g ∈ ((run constants os).realm p).installed, ∃ a : Artifact p, BuiltIn constants os g.id a ∧
    ((run constants os).realm p).Carries g a

theorem Traced.concat (h : Traced constants os p) (o : Operation) : Traced constants (os ++ [o]) p := by
  have hstep := (effect_after (reachable_run constants os) o p).step
  rw [← run_concat] at hstep
  have hoffer (a : Artifact p) {bound : Nat} (hb : ((run constants os).realm p).nextId ≤ bound)
      (ha : ((run constants os).realm p).Pending a ∨ (run constants os).Offers o a) :
      BuiltIn constants (os ++ [o]) bound a := by
    rcases ha with ha | ha
    · exact (h.pending a ha).mono hb o
    · obtain ⟨earlier, o', later, hsplit, ho, hn, hc⟩ := builtIn_offers ha
      exact ⟨earlier, o', later, hsplit, ho, Nat.le_trans hn hb, hc⟩
  constructor
  · intro a ha
    exact hoffer a hstep.nextId (hstep.pending a ha)
  · intro g' hg'
    rcases hstep.installed g' hg' with ⟨g, hg, hi⟩ | ⟨hn, a, ha, hc⟩
    · obtain ⟨a, hb, hc⟩ := h.installed g hg
      exact ⟨a, hb.mono (Nat.le_of_eq hi.id.symm) o, hi.carries hc⟩
    · exact ⟨a, hoffer a hn ha, hc⟩

theorem traced (constants : Dictionary String Constant) (os : List Operation) (p : Precision) :
    Traced constants os p := by
  induction os using List.reverseRecOn with
  | nil =>
    constructor
    · rintro a ⟨f, hf, -⟩
      cases p <;> cases hf
    · intro g hg
      cases p <;> cases hg
  | append_singleton os o ih => exact ih.concat o

end Run

end Session

end Phasor
