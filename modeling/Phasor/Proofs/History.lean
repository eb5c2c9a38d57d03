import Phasor.Proofs.Realm

namespace Phasor

variable {p : Precision}

inductive Operation where
  | define (name : String) (c : Constant)
  | build (p : Precision) (id : String) (q : Request)
  | compile (p : Precision) (id : String) (q : Request) (loader : Loader p)
  | install (p : Precision) (id : String) (loader : Loader p)
  | register (p : Precision) (id key : String)
  | invoke (p : Precision) (id : String) (xs : List p.Value)
  | release (p : Precision) (id : String)
  | drop (p : Precision) (id : String)
  | putBuiltin (p : Precision) (id : String) (f : Builtin p)
  | evaluate (p : Precision) (parameter : String) (x : p.Value) (tokens : List Token)

namespace Session

def after (s : Session) : Operation → Session
  | .define name c => s.define name c
  | .build p id q => (s.build p id q).2
  | .compile p id q loader => (s.compile p id q loader).2
  | .install p id loader => (s.install p id loader).2
  | .register p id key => (s.register p id key).2
  | .invoke p id xs => (s.invoke p id xs).2
  | .release p id => (s.release p id).2
  | .drop p id => (s.drop p id).2
  | .putBuiltin p id f => s.putBuiltin p id f
  | .evaluate p parameter x tokens => (s.evaluate p parameter x tokens).2

inductive Reachable : Session → Prop
  | start (constants : Dictionary String Constant) : Reachable { table := ⟨constants, .empty⟩ }
  | after {s : Session} (h : Reachable s) (o : Operation) : Reachable (s.after o)

@[simp] theorem realm_setRealm (s : Session) (r : Realm p) : (s.setRealm r).realm p = r := by
  cases p <;> rfl

theorem realm_setRealm_of_ne (s : Session) (r : Realm p) {q : Precision} (h : q ≠ p) :
    (s.setRealm r).realm q = s.realm q := by
  cases p <;> cases q <;> first | rfl | exact absurd rfl h

@[simp] theorem setRealm_realm (s : Session) (p : Precision) : s.setRealm (s.realm p) = s := by
  cases p <;> rfl

@[simp] theorem realm_withTable (s : Session) (table : SymbolTable EntryRef) (p : Precision) :
    ({ s with table := table } : Session).realm p = s.realm p := by
  cases p <;> rfl

end Session

theorem Realm.Models.mem_ids {r : Realm p} {lib : Library p} {meaning : Nat → p.Value → p.Value}
    (h : r.Models lib meaning) {id : Nat} : id ∈ lib.ids ↔ ∃ g ∈ r.installed, g.id = id := by
  rw [h.installed, Library.mem_ids]
  simp [Library.functions, Member.id]

theorem Realm.Models.mem_of_isLive {r : Realm p} {lib : Library p} {meaning : Nat → p.Value → p.Value}
    (h : r.Models lib meaning) {id : Nat} (hl : r.isLive id = true) : id ∈ lib.ids := by
  unfold Realm.isLive Realm.find? at hl
  obtain ⟨f, hf, -⟩ := (Option.any_eq_true _ _).mp hl
  exact h.mem_ids.mpr ⟨f, List.mem_of_find?_eq_some hf, by simpa using List.find?_some hf⟩

theorem Realm.Models.ready {s : Session} {lib : Library p} {meaning : Nat → p.Value → p.Value}
    (h : (s.realm p).Models lib meaning) : lib.Ready s.scope (s.realm p).memory := by
  refine ⟨h.linked, h.rests, ?_⟩
  intro name id hid
  have he := Scope.entry_eq_ok.mp hid
  simp only [Session.scope, SymbolTable.scope, SymbolTable.lookup?] at he
  obtain ⟨-, hl⟩ := Option.filter_eq_some_iff.mp he
  exact h.mem_of_isLive hl

def Realm.Continues (r r' : Realm p) : Prop :=
  ∀ lib meaning, r.Models lib meaning → ∃ lib' meaning', r'.Models lib' meaning' ∧ r.nextId ≤ r'.nextId ∧
    ∀ n < r.nextId, meaning' n = meaning n

theorem Realm.Continues.refl (r : Realm p) : r.Continues r :=
  fun lib meaning h => ⟨lib, meaning, h, Nat.le_refl _, fun _ _ => rfl⟩

theorem Realm.Continues.trans {r r₁ r₂ : Realm p} (h : r.Continues r₁) (h' : r₁.Continues r₂) :
    r.Continues r₂ := by
  intro lib meaning hm
  obtain ⟨lib₁, meaning₁, hm₁, hn₁, he₁⟩ := h lib meaning hm
  obtain ⟨lib₂, meaning₂, hm₂, hn₂, he₂⟩ := h' lib₁ meaning₁ hm₁
  refine ⟨lib₂, meaning₂, hm₂, Nat.le_trans hn₁ hn₂, ?_⟩
  intro n hn
  exact (he₂ n (Nat.lt_of_lt_of_le hn hn₁)).trans (he₁ n hn)

theorem Session.continues_setRealm {s : Session} {q : Precision} {r : Realm q} (h : (s.realm q).Continues r)
    (p : Precision) : (s.realm p).Continues ((s.setRealm r).realm p) := by
  by_cases hp : p = q
  · subst hp
    rw [realm_setRealm]
    exact h
  · rw [realm_setRealm_of_ne _ _ hp]
    exact .refl _

namespace Session

variable {s : Session}

theorem compiledOf_eq_ok {q : Request} {f : Compiled p} (h : s.compiledOf p q = .ok f) :
    ∃ a : Artifact p, Artifact.ofTokens s.scope q.settings q.parameter q.tokens = .ok a ∧
      f = .ofArtifact q.name q.key q.parameter a := by
  unfold compiledOf at h
  rcases ha : (Artifact.ofTokens s.scope q.settings q.parameter q.tokens : Except Error (Artifact p)) with e | a
  · simp [ha, bind, Except.bind] at h
  · simp only [ha, bind, Except.bind, pure, Except.pure, Except.ok.injEq] at h
    exact ⟨a, rfl, h.symm⟩

theorem backed_compiledOf {q : Request} {f : Compiled p} {lib : Library p} {meaning : Nat → p.Value → p.Value}
    (hm : (s.realm p).Models lib meaning) (h : s.compiledOf p q = .ok f) :
    (Callable.compiled f).Backed lib := by
  obtain ⟨a, ha, rfl⟩ := compiledOf_eq_ok h
  exact ⟨⟨_, _, _, _, ha⟩, hm.ready.calls_mem ha⟩

theorem backed_function {id : String} {c : Callable p} {lib : Library p} {meaning : Nat → p.Value → p.Value}
    (hm : (s.realm p).Models lib meaning) (h : s.function? p id = some c) : c.Backed lib :=
  hm.backed c (Dictionary.mem_values_of_get? h)

theorem continues_build (s : Session) (q : Precision) (id : String) (request : Request) (p : Precision) :
    (s.realm p).Continues ((s.after (.build q id request)).realm p) := by
  rcases hf : s.compiledOf q request with e | f
  · simp only [after, build, hf]
    exact .refl _
  · simp only [after, build, hf]
    apply continues_setRealm
    intro lib meaning hm
    obtain ⟨lib', hm'⟩ := hm.put (backed_compiledOf hm hf) id
    exact ⟨lib', meaning, hm', Nat.le_refl _, fun _ _ => rfl⟩

inductive Publishes (s : Session) (p : Precision) (q : Request) (loader : Loader p) :
    Except Error (Compiled p) → Session → Prop
  | duplicate (hk : (s.lookup? q.key).isSome = true) :
      Publishes s p q loader (.error (.duplicateFunction q.key)) s
  | rejected {e : Error} (hk : s.lookup? q.key = none)
      (ha : (Artifact.ofTokens s.scope q.settings q.parameter q.tokens : Except Error (Artifact p)) = .error e) :
      Publishes s p q loader (.error e) s
  | refused {a : Artifact p} {message : String} (hk : s.lookup? q.key = none)
      (ha : Artifact.ofTokens s.scope q.settings q.parameter q.tokens = .ok a) (hl : loader a = .error message) :
      Publishes s p q loader (.error (.installRejected (.refused message))) s
  | taken {a : Artifact p} {e : Error} (hk : s.lookup? q.key = none)
      (ha : Artifact.ofTokens s.scope q.settings q.parameter q.tokens = .ok a) (hl : loader a = .ok ())
      (ht : s.table.register (s.setRealm ((s.realm p).load a)).isLive q.key ⟨p, (s.realm p).nextId⟩ = .error e) :
      Publishes s p q loader (.error e) (s.setRealm ((s.realm p).load a))
  | published {a : Artifact p} {table : SymbolTable EntryRef} (hk : s.lookup? q.key = none)
      (ha : Artifact.ofTokens s.scope q.settings q.parameter q.tokens = .ok a) (hl : loader a = .ok ())
      (ht : s.table.register (s.setRealm ((s.realm p).load a)).isLive q.key ⟨p, (s.realm p).nextId⟩ = .ok table) :
      Publishes s p q loader
        (.ok { Compiled.ofArtifact q.name q.key q.parameter a with stage := .ready (s.realm p).nextId })
        { s.setRealm ((s.realm p).load a) with table := table }

theorem table_setRealm (s : Session) (r : Realm p) : (s.setRealm r).table = s.table := by
  cases p <;> rfl

theorem publishes {q : Request} {loader : Loader p} {x : Except Error (Compiled p)} {s' : Session}
    (hx : s.publish p q loader = (x, s')) : s.Publishes p q loader x s' := by
  suffices h : s.Publishes p q loader (s.publish p q loader).1 (s.publish p q loader).2 by
    rwa [hx] at h
  unfold publish
  split
  · rename_i hk
    exact .duplicate hk
  · rename_i hk
    have hk : s.lookup? q.key = none := by simpa using hk
    rcases ha : (Artifact.ofTokens s.scope q.settings q.parameter q.tokens : Except Error (Artifact p)) with e | a
    · have hf : s.compiledOf p q = .error e := by simp [compiledOf, ha, bind, Except.bind]
      simp only [hf]
      exact .rejected hk ha
    · have hf : s.compiledOf p q = .ok (.ofArtifact q.name q.key q.parameter a) := by
        simp [compiledOf, ha, bind, Except.bind, pure, Except.pure]
      simp only [hf, Realm.install, Compiled.install, Compiled.ofArtifact]
      rcases hl : loader a with message | _
      · simp only [setRealm_realm]
        exact .refused hk ha hl
      · simp only [Compiled.entry?, table_setRealm]
        rcases ht : s.table.register (s.setRealm ((s.realm p).load a)).isLive q.key ⟨p, (s.realm p).nextId⟩ with
          e | table
        · exact .taken hk ha hl ht
        · exact .published hk ha hl ht

theorem continues_load {q : Request} {a : Artifact p}
    (ha : Artifact.ofTokens s.scope q.settings q.parameter q.tokens = .ok a) :
    (s.realm p).Continues ((s.realm p).load a) := by
  intro lib meaning hm
  obtain ⟨lib', F, hm', -⟩ := hm.load ⟨_, _, _, _, ha⟩ (hm.ready.calls_mem ha)
  exact ⟨lib', _, hm', Nat.le_succ _, fun n hn => if_neg (Nat.ne_of_lt hn)⟩

theorem continues_publish (s : Session) (q : Precision) (request : Request) (loader : Loader q) (p : Precision) :
    (s.realm p).Continues ((s.publish q request loader).2.realm p) := by
  rcases hx : s.publish q request loader with ⟨x, s'⟩
  cases publishes hx with
  | duplicate => exact .refl _
  | rejected => exact .refl _
  | refused => exact .refl _
  | taken _ ha => exact continues_setRealm (continues_load ha) p
  | published _ ha =>
    rw [realm_withTable]
    exact continues_setRealm (continues_load ha) p

theorem continues_compile (s : Session) (q : Precision) (id : String) (request : Request) (loader : Loader q)
    (p : Precision) : (s.realm p).Continues ((s.after (.compile q id request loader)).realm p) := by
  have hp := continues_publish s q request loader p
  simp only [after, compile, compileWith]
  rcases hx : s.publish q request loader with ⟨e | f, s'⟩ <;> rw [hx] at hp
  · refine hp.trans (continues_setRealm ?_ p)
    intro lib meaning hm
    obtain ⟨lib', hm'⟩ := hm.sweep
    exact ⟨lib', meaning, hm', Nat.le_refl _, fun _ _ => rfl⟩
  · refine hp.trans (continues_setRealm ?_ p)
    intro lib meaning hm
    have hb : (Callable.compiled f).Backed lib := by
      cases publishes hx with
      | published _ ha _ _ =>
        rw [realm_withTable, realm_setRealm] at hm
        exact hm.mem_ids.mpr ⟨_, List.mem_cons_self, rfl⟩
    obtain ⟨lib', hm'⟩ := hm.put hb id
    exact ⟨lib', meaning, hm', Nat.le_refl _, fun _ _ => rfl⟩

theorem continues_install (s : Session) (q : Precision) (id : String) (loader : Loader q) (p : Precision) :
    (s.realm p).Continues ((s.after (.install q id loader)).realm p) := by
  rcases hf : s.function? q id with _ | (f | f)
  · simp only [after, Session.install, hf]
    exact .refl _
  · simp only [after, Session.install, hf]
    apply continues_setRealm
    intro lib meaning hm
    obtain ⟨lib₁, meaning₁, hm₁, hb, hn, he⟩ := hm.install (backed_function hm hf) loader
    obtain ⟨lib₂, hm₂⟩ := hm₁.put hb id
    exact ⟨lib₂, meaning₁, hm₂, hn, he⟩
  · simp only [after, Session.install, hf]
    exact .refl _

theorem continues_register (s : Session) (q : Precision) (id key : String) (p : Precision) :
    (s.realm p).Continues ((s.after (.register q id key)).realm p) := by
  simp only [after, Session.register]
  split
  · exact .refl _
  · split
    · exact .refl _
    · split
      · simp only [realm_withTable]
        exact .refl _
      · exact .refl _

theorem continues_invoke (s : Session) (q : Precision) (id : String) (xs : List q.Value) (p : Precision) :
    (s.realm p).Continues ((s.after (.invoke q id xs)).realm p) := by
  rcases hf : s.function? q id with _ | c
  · simp only [after, Session.invoke, hf]
    exact .refl _
  · simp only [after, Session.invoke, hf]
    apply continues_setRealm
    intro lib meaning hm
    obtain ⟨m, hrest, hall⟩ := hm.invokeAll (backed_function hm hf) xs
    rw [hall]
    exact ⟨lib, meaning, hm.with_memory hrest, Nat.le_refl _, fun _ _ => rfl⟩

theorem continues_release (s : Session) (q : Precision) (id : String) (p : Precision) :
    (s.realm p).Continues ((s.after (.release q id)).realm p) := by
  rcases hf : s.function? q id with _ | (f | f)
  · simp only [after, Session.release, hf]
    exact .refl _
  · simp only [after, Session.release, hf]
    apply continues_setRealm
    intro lib meaning hm
    have hb (lib' : Library q) : (Callable.compiled f.release).Backed lib' := trivial
    rcases he : f.entry? with _ | n
    · obtain ⟨lib', hm'⟩ := hm.put (hb lib) id
      exact ⟨lib', meaning, hm', Nat.le_refl _, fun _ _ => rfl⟩
    · obtain ⟨lib', hm'⟩ := (hm.release n).put (hb _) id
      exact ⟨lib', meaning, hm', Nat.le_refl _, fun _ _ => rfl⟩
  · simp only [after, Session.release, hf]
    exact .refl _

theorem continues_drop (s : Session) (q : Precision) (id : String) (p : Precision) :
    (s.realm p).Continues ((s.after (.drop q id)).realm p) := by
  apply continues_setRealm
  intro lib meaning hm
  obtain ⟨lib', hm'⟩ := hm.drop id
  exact ⟨lib', meaning, hm', Nat.le_refl _, fun _ _ => rfl⟩

theorem continues_putBuiltin (s : Session) (q : Precision) (id : String) (f : Builtin q) (p : Precision) :
    (s.realm p).Continues ((s.after (.putBuiltin q id f)).realm p) := by
  apply continues_setRealm
  intro lib meaning hm
  have hb : (Callable.builtin f).Backed lib := trivial
  obtain ⟨lib', hm'⟩ := hm.put hb id
  exact ⟨lib', meaning, hm', Nat.le_refl _, fun _ _ => rfl⟩

theorem continues_evaluate (s : Session) (q : Precision) (parameter : String) (x : q.Value) (tokens : List Token)
    (p : Precision) : (s.realm p).Continues ((s.after (.evaluate q parameter x tokens)).realm p) := by
  apply continues_setRealm
  intro lib meaning hm
  refine ⟨lib, meaning, hm.with_memory ?_, Nat.le_refl _, fun _ _ => rfl⟩
  change (outcome (Eval.expression s.scope (s.realm q).installed parameter x tokens) (s.realm q).memory).2.AtRest lib
  rw [hm.installed]
  rcases hp : Tree.parse s.scope q true parameter tokens with e | t
  · obtain ⟨m, hf, hready⟩ := Eval.expression_fails (x := x) hm.means hm.ready hp
    rw [show outcome _ _ = _ from hf]
    exact hready.rests
  · obtain ⟨z, m, hg, -, hready⟩ := Eval.expression_gives (x := x) hm.means hm.ready hp
    rw [show outcome _ _ = _ from hg]
    exact hready.rests

theorem continues_after (s : Session) (o : Operation) (p : Precision) :
    (s.realm p).Continues ((s.after o).realm p) := by
  cases o with
  | define name c =>
    simp only [after, define, realm_withTable]
    exact .refl _
  | build q id request => exact continues_build s q id request p
  | compile q id request loader => exact continues_compile s q id request loader p
  | install q id loader => exact continues_install s q id loader p
  | register q id key => exact continues_register s q id key p
  | invoke q id xs => exact continues_invoke s q id xs p
  | release q id => exact continues_release s q id p
  | drop q id => exact continues_drop s q id p
  | putBuiltin q id f => exact continues_putBuiltin s q id f p
  | evaluate q parameter x tokens => exact continues_evaluate s q parameter x tokens p

theorem continues_history (s : Session) (os : List Operation) (p : Precision) :
    (s.realm p).Continues ((os.foldl after s).realm p) := by
  induction os generalizing s with
  | nil => exact .refl _
  | cons o os ih => exact (continues_after s o p).trans (ih (s.after o))

theorem Reachable.models (h : s.Reachable) (p : Precision) :
    ∃ lib meaning, (s.realm p).Models lib meaning := by
  induction h with
  | start constants =>
    refine ⟨[], fun _ z => z, ?_, .nil, ?_, ?_, ?_, ?_⟩ <;> cases p <;>
      simp [realm, Library.functions, Library.Means, Memory.AtRest, Library.ids, Dictionary.values, Dictionary.empty]
  | after h o ih =>
    obtain ⟨lib, meaning, hm⟩ := ih
    obtain ⟨lib', meaning', hm', -⟩ := continues_after _ o p lib meaning hm
    exact ⟨lib', meaning', hm'⟩

theorem Reachable.exists_ready (h : s.Reachable) (p : Precision) :
    ∃ lib : Library p, (s.realm p).installed = lib.functions ∧ lib.Ready s.scope (s.realm p).memory := by
  obtain ⟨lib, meaning, hm⟩ := h.models p
  exact ⟨lib, hm.installed, hm.ready⟩

/-- While an operation runs functions, the memory becomes `m`, and at that point the functions
`active` have begun and not returned. Evaluation enters functions as they are; an invocation starts
from the reset cursor. -/
inductive During (s : Session) (p : Precision) : Operation → List Nat → Memory p → Prop
  | invoke {id : String} {f : Compiled p} {n : Nat} {before after : List p.Value} {x : p.Value} {r : Realm p}
      {active : List Nat} {m : Memory p} (hf : s.function? p id = some (.compiled f)) (hn : f.stage = .ready n)
      (hr : ((s.realm p).invokeAll (.compiled f) before).2 = r)
      (hd : Machine.DuringEntry r.installed n x (r.memory.resetCursor n) active m) :
      During s p (.invoke p id (before ++ x :: after)) active m
  | evaluate {parameter : String} {x : p.Value} {before after : List Token} {stack : List p.Value} {m : Memory p}
      (hg : Gives (before.foldlM (Eval.token s.scope (s.realm p).installed parameter x) []) (s.realm p).memory
        stack m) : During s p (.evaluate p parameter x (before ++ after)) [] m
  | evaluateCall {parameter name : String} {x z : p.Value} {before after : List Token} {stack : List p.Value}
      {n : Nat} {active : List Nat} {m₁ m : Memory p}
      (hg : Gives (before.foldlM (Eval.token s.scope (s.realm p).installed parameter x) []) (s.realm p).memory
        (z :: stack) m₁) (he : s.scope.entry p name = .ok n)
      (hd : Machine.DuringEntry (s.realm p).installed n z m₁ active m) :
      During s p (.evaluate p parameter x (before ++ .call name :: after)) active m

theorem During.rests {lib : Library p} {meaning : Nat → p.Value → p.Value} {o : Operation} {active : List Nat}
    {m : Memory p} (hm : (s.realm p).Models lib meaning) (hd : s.During p o active m) :
    ∀ g ∈ lib, g.id ∉ active → ∃ r, m.arenas.get? g.id = some r ∧ g.artifact.Rests r := by
  cases hd with
  | @invoke id f n before after x r active m hf hn hr hd =>
    obtain ⟨m', hrest, hall⟩ := hm.invokeAll (backed_function hm hf) before
    rw [hall] at hr
    subst hr
    simp only [hm.installed] at hd
    exact hm.linked.duringEntry (hrest.resetCursor n) hd
  | evaluate hg =>
    rw [hm.installed] at hg
    obtain ⟨-, -, -, hready⟩ := Eval.exists_trees hm.means hm.ready hg
    intro g hg _
    exact hready.rests g hg
  | evaluateCall hg he hd =>
    rw [hm.installed] at hg hd
    obtain ⟨-, -, -, hready⟩ := Eval.exists_trees hm.means hm.ready hg
    exact hm.linked.duringEntry hready.rests hd

theorem invoke_eq_ok {lib : Library p} {meaning : Nat → p.Value → p.Value} {id : String} {f : Compiled p} {n : Nat}
    (hm : (s.realm p).Models lib meaning) (hf : s.function? p id = some (.compiled f)) (hn : f.stage = .ready n)
    (xs : List p.Value) : n ∈ lib.ids ∧ (s.invoke p id xs).1 = .ok ((xs.map (meaning n)).map .ok) := by
  have hid : n ∈ lib.ids := by simpa only [Callable.Backed, hn] using backed_function hm hf
  obtain ⟨m, -, hall⟩ := hm.invokeAll_ready hn hid xs
  refine ⟨hid, ?_⟩
  simp only [Session.invoke, hf, hall, List.map_map]
  rfl

end Session

theorem Memory.cursor?_of_rests {lib : Library p} {m : Memory p} {r : Realm p} {meaning : Nat → p.Value → p.Value}
    (hm : r.Models lib meaning) (idle : Nat → Prop)
    (h : ∀ g ∈ lib, idle g.id → ∃ a, m.arenas.get? g.id = some a ∧ g.artifact.Rests a) :
    ∀ g ∈ r.installed, idle g.id → m.cursor? g.id = some 0 := by
  intro g hg hidle
  rw [hm.installed] at hg
  obtain ⟨f, hf, rfl⟩ := List.mem_map.mp hg
  obtain ⟨a, ha, hrest⟩ := h f hf hidle
  have hget : m.arenas.get? f.installed.id = some a := ha
  simp [Memory.cursor?, hget, hrest.cursor]

/-- A function that is ready gives the same values after any operations as before them, as long as
it is ready. Every function that does not run has its cursor at the start, between operations and
within them. -/
theorem ready_function_keeps_values {s : Session} (hs : s.Reachable) (p : Precision) :
    (∀ (id : String) (f : Compiled p) (n : Nat), s.function? p id = some (.compiled f) → f.stage = .ready n →
      ∀ (os : List Operation) (f' : Compiled p),
        (os.foldl Session.after s).function? p id = some (.compiled f') → f'.stage = .ready n →
          ∀ xs : List p.Value, ((os.foldl Session.after s).invoke p id xs).1 = (s.invoke p id xs).1 ∧
            ∃ ys : List p.Value, (s.invoke p id xs).1 = .ok (ys.map .ok)) ∧
    (∀ g ∈ (s.realm p).installed, (s.realm p).memory.cursor? g.id = some 0) ∧
    ∀ o active m, s.During p o active m →
      ∀ g ∈ (s.realm p).installed, g.id ∉ active → m.cursor? g.id = some 0 := by
  obtain ⟨lib, meaning, hm⟩ := hs.models p
  refine ⟨?_, ?_, ?_⟩
  · intro id f n hf hn os f' hf' hn' xs
    obtain ⟨lib', meaning', hm', -, hsame⟩ := Session.continues_history s os p lib meaning hm
    obtain ⟨hid, hnow⟩ := Session.invoke_eq_ok hm hf hn xs
    obtain ⟨-, hlater⟩ := Session.invoke_eq_ok hm' hf' hn' xs
    rw [hsame n (hm.numbered n hid)] at hlater
    exact ⟨hlater.trans hnow.symm, xs.map (meaning n), hnow⟩
  · intro g hg
    exact Memory.cursor?_of_rests hm (fun _ => True) (fun f hf _ => hm.rests f hf) g hg trivial
  · intro o active m hd
    exact Memory.cursor?_of_rests hm (· ∉ active) (hd.rests hm)

theorem Session.exists_reachable_square : ∃ (s : Session) (f : Compiled .double), s.Reachable ∧
    s.function? .double "square" = some (.compiled f) ∧ f.stage = .ready 0 := by
  let start : Session := { table := ⟨.empty, .empty⟩ }
  let q : Request := ⟨"square", "square", "x", [.identifier "x", .identifier "x", .operator "*"], {}⟩
  have hparse : Tree.parse start.scope .double false "x" q.tokens =
      .ok (.binary .mul (.identifier "x") (.identifier "x")) := rfl
  obtain ⟨a, ha⟩ := Artifact.exists_ofTokens {} hparse
  have hf : start.compiledOf .double q = .ok (.ofArtifact "square" "square" "x" a) := by
    unfold compiledOf
    rw [show Artifact.ofTokens start.scope q.settings q.parameter q.tokens = .ok a from ha]
    rfl
  let o : Operation := .compile .double "square" q (.accepting .double)
  let f : Compiled .double := { Compiled.ofArtifact "square" "square" "x" a with stage := .ready 0 }
  have hafter : (start.after o).function? .double "square" = some (.compiled f) := by
    have hk : start.lookup? q.key = none := rfl
    simp only [o, after, compile, compileWith, publish, hk, hf, Option.isSome_none, Bool.false_eq_true, ↓reduceIte]
    rfl
  exact ⟨start.after o, f, .after (.start .empty) o, hafter, rfl⟩

theorem ready_function_keeps_values_square : ∃ (s : Session) (f : Compiled .double), s.Reachable ∧
    s.function? .double "square" = some (.compiled f) ∧ f.stage = .ready 0 ∧
    ((s.after (.evaluate .double "y" (FloatComplex.real 2) [.identifier "y", .call "square"])).invoke .double "square"
      [FloatComplex.real 3]).1 = (s.invoke .double "square" [FloatComplex.real 3]).1 := by
  obtain ⟨s, f, hs, hf, hn⟩ := Session.exists_reachable_square
  let os : List Operation := [.evaluate .double "y" (FloatComplex.real 2) [.identifier "y", .call "square"]]
  have hf' : (os.foldl Session.after s).function? .double "square" = some (.compiled f) := hf
  exact ⟨s, f, hs, hf, hn, ((ready_function_keeps_values hs .double).1 "square" f 0 hf hn os f hf' hn _).1⟩

end Phasor
