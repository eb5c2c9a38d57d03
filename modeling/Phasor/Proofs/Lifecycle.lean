import Mathlib.Data.Set.Subsingleton
import Phasor.Proofs.Liveness

namespace Phasor

variable {p : Precision}

namespace Compiled

theorem entry?_eq_some {f : Compiled p} {n : Nat} : f.entry? = some n ↔ f.stage = .ready n := by
  unfold entry?
  rcases hs : f.stage with a | _ | m | _ <;> simp

theorem isReady_iff (f : Compiled p) : f.isReady = true ↔ ∃ n, f.stage = .ready n := by
  simp only [isReady, Option.isSome_iff_exists, entry?_eq_some]

end Compiled

def FirstAttempt (p : Precision) (id : String) (os : List Operation) (loader : Loader p) : Prop :=
  ∃ before after, os = before ++ .install p id loader :: after ∧ ∀ l, .install p id l ∉ before

namespace FirstAttempt

variable {id : String} {os : List Operation} {loader l : Loader p}

theorem mem (h : FirstAttempt p id os loader) : .install p id loader ∈ os := by
  obtain ⟨before, after, rfl, -⟩ := h
  simp

theorem append (h : FirstAttempt p id os loader) (later : List Operation) : FirstAttempt p id (os ++ later) loader := by
  obtain ⟨before, after, rfl, hfirst⟩ := h
  exact ⟨before, after ++ later, by simp, hfirst⟩

theorem of_none (h : ∀ l, .install p id l ∉ os) (loader : Loader p) :
    FirstAttempt p id (os ++ [.install p id loader]) loader :=
  ⟨os, [], rfl, h⟩

theorem unique (h : FirstAttempt p id os loader) (hl : FirstAttempt p id os l) : loader = l := by
  obtain ⟨before, after, rfl, hfirst⟩ := h
  obtain ⟨before', after', he, hfirst'⟩ := hl
  rcases List.append_eq_append_iff.mp he with ⟨mid, rfl, hmid⟩ | ⟨mid, rfl, hmid⟩
  · cases mid with
    | nil =>
      cases hmid
      rfl
    | cons o mid =>
      cases hmid
      exact absurd (by simp) (hfirst' loader)
  · cases mid with
    | nil =>
      cases hmid
      rfl
    | cons o mid =>
      cases hmid
      exact absurd (by simp) (hfirst l)

end FirstAttempt

def Ended (id : String) (a : Artifact p) (os : List Operation) : Prop :=
  .release p id ∈ os ∨ ∃ loader message, FirstAttempt p id os loader ∧ loader a = .error message

theorem Ended.append {id : String} {a : Artifact p} {os : List Operation} (h : Ended id a os) (later : List Operation) :
    Ended id a (os ++ later) := by
  rcases h with h | ⟨loader, message, hl, ha⟩
  · exact .inl (List.mem_append_left _ h)
  · exact .inr ⟨loader, message, hl.append later, ha⟩

inductive Stage.Follows (id : String) (a : Artifact p) (os : List Operation) : Stage p → Prop
  | built (hi : ∀ l, .install p id l ∉ os) (hr : .release p id ∉ os) : Follows id a os (.built a)
  | ready {loader : Loader p} {n : Nat} (hl : FirstAttempt p id os loader) (ha : loader a = .ok ())
      (hr : .release p id ∉ os) : Follows id a os (.ready n)
  | spent {loader : Loader p} {message : String} (hl : FirstAttempt p id os loader) (ha : loader a = .error message)
      (hr : .release p id ∉ os) : Follows id a os .spent
  | released (hr : .release p id ∈ os) : Follows id a os .released

namespace Stage.Follows

variable {id : String} {a : Artifact p} {os : List Operation} {stage : Stage p}

theorem built_iff (h : stage.Follows id a os) :
    stage = .built a ↔ (∀ l, .install p id l ∉ os) ∧ .release p id ∉ os := by
  cases h with
  | built hi hr => simp [hi, hr]
  | ready hl | spent hl =>
    refine ⟨nofun, ?_⟩
    intro hnone
    exact absurd hl.mem (hnone.1 _)
  | released hr => simp [hr]

theorem artifact_eq (h : stage.Follows id a os) {b : Artifact p} (hb : stage = .built b) : b = a := by
  subst hb
  cases h
  rfl

theorem ready_iff (h : stage.Follows id a os) :
    (∃ n, stage = .ready n) ↔ (∃ loader, FirstAttempt p id os loader ∧ loader a = .ok ()) ∧ .release p id ∉ os := by
  cases h with
  | built hi hr =>
    refine ⟨nofun, ?_⟩
    rintro ⟨⟨loader, hl, -⟩, -⟩
    exact absurd hl.mem (hi loader)
  | @ready loader n hl ha hr => exact ⟨fun _ => ⟨⟨loader, hl, ha⟩, hr⟩, fun _ => ⟨n, rfl⟩⟩
  | spent hl ha hr =>
    refine ⟨nofun, ?_⟩
    rintro ⟨⟨loader, hl', ha'⟩, -⟩
    rw [hl'.unique hl, ha] at ha'
    cases ha'
  | released hr => simp [hr]

theorem released_iff (h : stage.Follows id a os) : stage = .released ↔ .release p id ∈ os := by
  cases h with
  | built _ hr | ready _ _ hr | spent _ _ hr => simp [hr]
  | released hr => simp [hr]

theorem over_of_ended (h : stage.Follows id a os) (he : Ended id a os) : stage = .spent ∨ stage = .released := by
  rcases he with hr | ⟨loader, message, hl, ha⟩
  · exact .inr (h.released_iff.mpr hr)
  cases h with
  | built hi => exact absurd hl.mem (hi loader)
  | ready hl' ha' =>
    rw [hl.unique hl', ha'] at ha
    cases ha
  | spent => exact .inl rfl
  | released => exact .inr rfl

end Stage.Follows

namespace Realm

variable {r r' : Realm p} {o : Operation} {id : String} {f f' : Compiled p}

inductive Moves (r : Realm p) (id : String) (f : Compiled p) (o : Operation) : Compiled p → Prop
  | install {loader : Loader p} (ho : o = .install p id loader) : Moves r id f o (r.install f loader).2.1
  | release (ho : o = .release p id) : Moves r id f o f.release
  | stays (hi : ∀ loader, o ≠ .install p id loader) (hr : o ≠ .release p id) : Moves r id f o f

theorem moves_of_not_spares {k : String} (ho : ¬ o.Spares p k) : r.Moves id f o f := by
  apply Moves.stays
  · rintro loader rfl
    exact ho trivial
  · rintro rfl
    exact ho trivial

theorem function?_put_self {k : String} {c : Callable p} : (r.put k c).functions.get? k = some c := by
  change (r.functions.insert k c).get? k = _
  rw [Dictionary.get?_insert, if_pos rfl]

theorem function?_put_of_ne {k : String} {c : Callable p} (hk : id ≠ k) :
    (r.put k c).functions.get? id = r.functions.get? id := by
  change (r.functions.insert k c).get? id = _
  rw [Dictionary.get?_insert, if_neg hk]

theorem functions_install (r : Realm p) (f : Compiled p) (loader : Loader p) :
    (r.install f loader).2.2.functions = r.functions := by
  have hi := r.installs f loader
  generalize r.install f loader = x at hi
  cases hi <;> rfl

theorem Becomes.moves (hb : r.Becomes o r') (hf : r.functions.get? id = some (.compiled f)) (ho : o.Spares p id) :
    ∃ f', r'.functions.get? id = some (.compiled f') ∧ r.Moves id f o f' := by
  have hput {m : Realm p} {k : String} {c : Callable p} (hm : m.functions = r.functions) (hk : id ≠ k) :
      (m.put k c).functions.get? id = some (.compiled f) := by
    rw [function?_put_of_ne hk, hm]
    exact hf
  cases hb with
  | runs hidle m =>
    refine ⟨f, hf, .stays ?_ ?_⟩
    · rintro loader rfl
      exact hidle ⟨rfl, f, hf⟩
    · rintro rfl
      exact hidle ⟨rfl, f, hf⟩
  | @stored k c hk =>
    refine ⟨f, hput rfl ?_, moves_of_not_spares hk⟩
    rintro rfl
    exact hk ho
  | @published k c hk hc a =>
    refine ⟨f, hput (m := r.load a) rfl ?_, moves_of_not_spares hk⟩
    rintro rfl
    exact hk ho
  | @dropped k hk =>
    refine ⟨f, ?_, moves_of_not_spares hk⟩
    have hne : id ≠ k := by
      rintro rfl
      exact hk ho
    change (r.functions.erase k).get? id = _
    rw [Dictionary.get?_erase, if_neg hne]
    exact hf
  | @installed k g loader hk hg =>
    by_cases hid : id = k
    · subst hid
      obtain rfl : f = g := by simpa using hf.symm.trans hg
      exact ⟨_, function?_put_self, .install hk⟩
    · refine ⟨f, hput (r.functions_install g loader) hid, .stays ?_ ?_⟩
      · rintro l rfl
        cases hk
        exact hid rfl
      · rintro rfl
        cases hk
  | @released k g hk hg =>
    by_cases hid : id = k
    · subst hid
      obtain rfl : f = g := by simpa using hf.symm.trans hg
      exact ⟨f.release, function?_put_self, .release hk⟩
    · refine ⟨f, hput ?_ hid, .stays ?_ ?_⟩
      · split
        · rfl
        · rfl
      · rintro l rfl
        cases hk
      · rintro rfl
        cases hk
        exact hid rfl

theorem Moves.stage_only (h : r.Moves id f o f') : f' = { f with stage := f'.stage } := by
  cases h with
  | release => rfl
  | stays => rfl
  | @install loader =>
    have hi := r.installs f loader
    generalize r.install f loader = x at hi ⊢
    cases hi <;> rfl

theorem Moves.follows {a : Artifact p} {os : List Operation} (h : r.Moves id f o f') (hs : f.stage.Follows id a os) :
    f'.stage.Follows id a (os ++ [o]) := by
  cases h with
  | release ho => exact .released (by simp [ho])
  | @install loader ho =>
    subst ho
    have hr (h : .release p id ∉ os) : .release p id ∉ os ++ [.install p id loader] := by simpa using h
    have hi := r.installs f loader
    generalize r.install f loader = x at hi ⊢
    cases hi with
    | accepted hstage hl =>
      rw [hstage] at hs
      cases hs with
      | built hnone hrel => exact .ready (.of_none hnone loader) hl (hr hrel)
    | refused hstage hl =>
      rw [hstage] at hs
      cases hs with
      | built hnone hrel => exact .spent (.of_none hnone loader) hl (hr hrel)
    | ready hstage =>
      simp only [hstage] at hs ⊢
      cases hs with
      | ready hl ha hrel => exact .ready (hl.append _) ha (hr hrel)
    | spent hstage =>
      simp only [hstage] at hs ⊢
      cases hs with
      | spent hl ha hrel => exact .spent (hl.append _) ha (hr hrel)
    | released hstage =>
      simp only [hstage] at hs ⊢
      cases hs with
      | released hrel => exact .released (List.mem_append_left _ hrel)
  | stays hi hrel =>
    have hr (h : .release p id ∉ os) : .release p id ∉ os ++ [o] := by simp [h, Ne.symm hrel]
    generalize f.stage = stage at hs
    cases hs with
    | built hnone h => exact .built (fun l => by simp [hnone l, Ne.symm (hi l)]) (hr h)
    | ready hl ha h => exact .ready (hl.append _) ha (hr h)
    | spent hl ha h => exact .spent (hl.append _) ha (hr h)
    | released h => exact .released (List.mem_append_left _ h)

end Realm

namespace Dictionary

variable {κ α : Type} [DecidableEq κ]

theorem get?_of_mem {d : Dictionary κ α} (hk : d.keys.Nodup) {e : κ × α} (he : e ∈ d.entries) :
    d.get? e.1 = some e.2 := by
  obtain ⟨es⟩ := d
  unfold keys at hk
  unfold get?
  induction es with
  | nil => cases he
  | cons b es ih =>
    obtain ⟨hfresh, hk⟩ := List.nodup_cons.mp hk
    rcases List.mem_cons.mp he with rfl | he
    · exact List.lookup_cons_self
    · have hne : e.1 ≠ b.1 := fun h => hfresh (h ▸ List.mem_map_of_mem he)
      rw [List.lookup_cons, beq_false_of_ne hne]
      exact ih hk he

theorem insert_eq_self {d : Dictionary κ α} (hk : d.keys.Nodup) {k : κ} {a : α} (h : d.get? k = some a) :
    d.insert k a = d := by
  have hcontains : d.contains k = true := by simp [contains, h]
  have hsame : d.entries.map (fun e => if e.1 = k then (k, a) else e) = d.entries := by
    conv_rhs => rw [← List.map_id d.entries]
    apply List.map_congr_left
    intro e he
    split
    · rename_i hek
      have hget := get?_of_mem hk he
      rw [hek, h] at hget
      exact Prod.ext hek.symm (Option.some.inj hget)
    · rfl
  rw [insert, if_pos hcontains, hsame]

end Dictionary

theorem Realm.Tidy.put_eq_self {r : Realm p} (h : r.Tidy) {k : String} {c : Callable p}
    (hc : r.functions.get? k = some c) : r.put k c = r := by
  rw [put, Dictionary.insert_eq_self h.keys hc]
  exact h.sweep_eq

namespace Session

variable {s : Session} {id : String} {f : Compiled p} {a : Artifact p}

theorem install_eq (hf : s.function? p id = some (.compiled f)) (loader : Loader p) :
    s.install p id loader = (((s.realm p).install f loader).1.mapError .failed,
      s.setRealm (((s.realm p).install f loader).2.2.put id (.compiled ((s.realm p).install f loader).2.1))) := by
  simp only [Session.install, hf]

theorem Reachable.setRealm_put_self (h : s.Reachable) {c : Callable p} (hc : s.function? p id = some c) :
    s.setRealm ((s.realm p).put id c) = s := by
  rw [(h.tidy p).put_eq_self hc, setRealm_realm]

theorem Reachable.install_stays (h : s.Reachable) (hf : s.function? p id = some (.compiled f)) {loader : Loader p}
    {outcome : Except Error Unit} (hi : (s.realm p).install f loader = (outcome, f, s.realm p)) :
    s.install p id loader = (outcome.mapError .failed, s) := by
  rw [install_eq hf, hi, h.setRealm_put_self hf]

theorem Reachable.install_ready (h : s.Reachable) (hf : s.function? p id = some (.compiled f)) {n : Nat}
    (hs : f.stage = .ready n) (loader : Loader p) : s.install p id loader = (.ok (), s) := by
  have hi : (s.realm p).install f loader = (.ok (), f, s.realm p) := by
    simp only [Realm.install, Compiled.install, hs]
  exact h.install_stays hf hi

theorem Reachable.install_over (h : s.Reachable) (hf : s.function? p id = some (.compiled f))
    (hs : f.stage = .spent ∨ f.stage = .released) :
    ∃ cause, ∀ loader, s.install p id loader = (.error (.failed (.installRejected cause)), s) := by
  rcases hs with hs | hs
  · refine ⟨.wasRefused f.key, ?_⟩
    intro loader
    have hi : (s.realm p).install f loader = (.error (.installRejected (.wasRefused f.key)), f, s.realm p) := by
      simp only [Realm.install, Compiled.install, hs]
    exact h.install_stays hf hi
  · refine ⟨.wasReleased f.key, ?_⟩
    intro loader
    have hi : (s.realm p).install f loader = (.error (.installRejected (.wasReleased f.key)), f, s.realm p) := by
      simp only [Realm.install, Compiled.install, hs]
    exact h.install_stays hf hi

theorem install_built (hf : s.function? p id = some (.compiled f)) (hs : f.stage = .built a) (loader : Loader p) :
    (s.install p id loader).1 = (loader a).mapError (fun message => .failed (.installRejected (.refused message))) := by
  rw [install_eq hf]
  cases hl : loader a with
  | ok => simp only [Realm.install, Compiled.install, hs, hl, Except.mapError]
  | error message => simp only [Realm.install, Compiled.install, hs, hl, Except.mapError]

def Asks (s : Session) (p : Precision) (id : String) : Prop :=
  ∃ loader loader' : Loader p, s.install p id loader ≠ s.install p id loader'

theorem Reachable.install_congr (h : s.Reachable) (hf : s.function? p id = some (.compiled f))
    {loader loader' : Loader p} (hl : ∀ a, f.stage = .built a → loader a = loader' a) :
    s.install p id loader = s.install p id loader' := by
  rcases hs : f.stage with a | _ | n | _
  case built => simp only [install_eq hf, Realm.install, Compiled.install, hs, hl a hs]
  case ready => rw [h.install_ready hf hs, h.install_ready hf hs]
  all_goals
    obtain ⟨cause, hc⟩ := h.install_over hf (by simp [hs])
    rw [hc, hc]

theorem Reachable.asks_iff (h : s.Reachable) (hf : s.function? p id = some (.compiled f)) :
    s.Asks p id ↔ ∃ a, f.stage = .built a := by
  constructor
  · rintro ⟨loader, loader', hne⟩
    by_contra hs
    exact hne (h.install_congr hf (fun a ha => absurd ⟨a, ha⟩ hs))
  · rintro ⟨a, hs⟩
    refine ⟨.accepting p, .refusing p "", ?_⟩
    intro he
    have houtcome := congrArg Prod.fst he
    rw [install_built hf hs, install_built hf hs] at houtcome
    cases houtcome

theorem invoke_unready (hf : s.function? p id = some (.compiled f)) {e : InvokeError}
    (he : ∀ x, (s.realm p).invoke (.compiled f) x = (.error e, s.realm p)) (xs : List p.Value) :
    (s.invoke p id xs).1 = .ok (xs.map (fun _ => .error e)) := by
  have hall : (s.realm p).invokeAll (.compiled f) xs = (xs.map (fun _ => .error e), s.realm p) := by
    induction xs with
    | nil => rfl
    | cons x xs ih => simp only [Realm.invokeAll, he x, ih, List.map_cons]
  simp only [Session.invoke, hf, hall]

theorem Reachable.function?_after (h : s.Reachable) (hf : s.function? p id = some (.compiled f)) {o : Operation}
    (ho : o.Spares p id) :
    ∃ f', (s.after o).function? p id = some (.compiled f') ∧ (s.realm p).Moves id f o f' :=
  (h.becomes o p).moves hf ho

theorem Reachable.foldl (h : s.Reachable) (os : List Operation) : (os.foldl Session.after s).Reachable := by
  induction os generalizing s with
  | nil => exact h
  | cons o os ih => exact ih (h.after o)

theorem Reachable.ready_stays (h : s.Reachable) (hf : s.function? p id = some (.compiled f)) {n : Nat}
    (hs : f.stage = .ready n) {os : List Operation} (hos : ∀ o ∈ os, o.Spares p id) (hr : .release p id ∉ os) :
    ∃ f', (os.foldl Session.after s).function? p id = some (.compiled f') ∧ f'.stage = .ready n := by
  induction os generalizing s f with
  | nil => exact ⟨f, hf, hs⟩
  | cons o os ih =>
    rw [List.forall_mem_cons] at hos
    rw [List.mem_cons, not_or] at hr
    obtain ⟨f', hf', hm⟩ := h.function?_after hf hos.1
    refine ih (h.after o) hf' ?_ hos.2 hr.2
    cases hm with
    | release ho => exact absurd ho.symm hr.1
    | stays => exact hs
    | install => simp only [Realm.install, Compiled.install, hs]

theorem Reachable.not_live_of_release (h : s.Reachable) (hf : s.function? p id = some (.compiled f)) {n : Nat}
    (hs : f.stage = .ready n) {os : List Operation} (hos : ∀ o ∈ os, o.Spares p id) (hr : .release p id ∈ os)
    (later : List Operation) : ((os ++ later).foldl Session.after s).isLive ⟨p, n⟩ = false := by
  obtain ⟨before, after, rfl, hfirst⟩ := List.eq_append_cons_of_mem hr
  obtain ⟨f', hf', hs'⟩ := h.ready_stays hf hs (fun o ho => hos o (List.mem_append_left _ ho)) hfirst
  have hreach := h.foldl before
  have hentry : f'.entry? = some n := Compiled.entry?_eq_some.mpr hs'
  rw [List.append_assoc, List.foldl_append, List.cons_append, List.foldl_cons]
  apply (hreach.after _).not_live_later
  · exact Nat.lt_of_lt_of_le (hreach.ready_lt hf' hs') (effect_after hreach _ p).step.nextId
  · intro hlive
    simp only [Session.after, Session.release, hf', hentry, realm_setRealm] at hlive
    exact hlive.of_put.of_release.2 rfl

def afterBuild (s : Session) (p : Precision) (id : String) (q : Request) (os : List Operation) : Session :=
  os.foldl Session.after (s.after (.build p id q))

variable {q : Request} {f₀ : Compiled p}

theorem compiledOf_of_build (hb : (s.build p id q).1 = .ok f₀) : s.compiledOf p q = .ok f₀ := by
  rcases hf : s.compiledOf p q with e | f
  · simp only [build, hf] at hb
    cases hb
  · simp only [build, hf] at hb
    exact hb

theorem exists_built (hb : (s.build p id q).1 = .ok f₀) : ∃ a, f₀.stage = .built a := by
  obtain ⟨a, -, rfl⟩ := compiledOf_eq_ok (compiledOf_of_build hb)
  exact ⟨a, rfl⟩

theorem function?_afterBuild_nil (hb : (s.build p id q).1 = .ok f₀) :
    (s.afterBuild p id q []).function? p id = some (.compiled f₀) := by
  simp only [afterBuild, List.foldl_nil, Session.after, build, compiledOf_of_build hb, function?, realm_setRealm]
  exact Realm.function?_put_self

theorem Reachable.exists_follows (h : s.Reachable) (hb : (s.build p id q).1 = .ok f₀) (ha : f₀.stage = .built a)
    {os : List Operation} (hos : ∀ o ∈ os, o.Spares p id) :
    ∃ f, (s.afterBuild p id q os).function? p id = some (.compiled f) ∧ f = { f₀ with stage := f.stage } ∧
      f.stage.Follows id a os := by
  induction os using List.reverseRecOn with
  | nil => exact ⟨f₀, function?_afterBuild_nil hb, rfl, ha ▸ .built (by simp) (by simp)⟩
  | append_singleton os o ih =>
    simp only [List.forall_mem_append, List.forall_mem_singleton] at hos
    obtain ⟨f, hf, hsame, hfollows⟩ := ih hos.1
    have hreach : (s.afterBuild p id q os).Reachable := (h.after _).foldl os
    obtain ⟨f', hf', hm⟩ := hreach.function?_after hf hos.2
    refine ⟨f', by simpa [afterBuild] using hf', ?_, hm.follows hfollows⟩
    rw [hm.stage_only, hsame]

structure Lives (s : Session) (id : String) (f₀ : Compiled p) (a : Artifact p) (os : List Operation) (f : Compiled p) :
    Prop where
  kept : s.function? p id = some (.compiled f)
  same : f.name = f₀.name ∧ f.header = f₀.header ∧ f.listing = f₀.listing ∧ f.arenaSize = f₀.arenaSize
  ready_iff : f.isReady = true ↔ (∃ loader, FirstAttempt p id os loader ∧ loader a = .ok ()) ∧ .release p id ∉ os
  entry_iff : (∃ n, f.entry? = some n) ↔ f.isReady = true
  entry_live : ∀ n, f.entry? = some n → s.isLive ⟨p, n⟩ = true
  install_ready : f.isReady = true → ∀ loader, s.install p id loader = (.ok (), s)
  asks_iff : s.Asks p id ↔ (∀ l, .install p id l ∉ os) ∧ .release p id ∉ os
  asks_about : ∀ l l' : Loader p, l a = l' a → s.install p id l = s.install p id l'
  install_asked : s.Asks p id → ∀ loader, (s.install p id loader).1 =
    (loader a).mapError (fun message => .failed (.installRejected (.refused message)))
  invoke_ready : f.isReady = true → ∀ xs, ∃ ys : List p.Value, ys.length = xs.length ∧
    (s.invoke p id xs).1 = .ok (ys.map .ok)
  invoke_before : f.isReady = false → .release p id ∉ os → ∀ xs,
    (s.invoke p id xs).1 = .ok (xs.map (fun _ => .error (.beforeInstall f₀.key)))
  invoke_after : .release p id ∈ os → ∀ xs,
    (s.invoke p id xs).1 = .ok (xs.map (fun _ => .error (.afterRelease f₀.key)))
  release_again : (s.after (.release p id)).release p id = (.ok false, s.after (.release p id))

theorem Reachable.release_again (h : s.Reachable) (hf : s.function? p id = some (.compiled f)) :
    (s.after (.release p id)).release p id = (.ok false, s.after (.release p id)) := by
  obtain ⟨f', hf', hm⟩ := h.function?_after hf (o := .release p id) trivial
  have hstage : f' = f.release := by
    cases hm with
    | release => rfl
    | stays _ hr => exact absurd rfl hr
    | install ho => cases ho
  subst hstage
  have hentry : f.release.entry? = none := rfl
  simp only [Session.release, hf', hentry]
  rw [show f.release.release = f.release from rfl, (h.after _).setRealm_put_self hf']

theorem Reachable.lives (h : s.Reachable) (hf : s.function? p id = some (.compiled f)) {os : List Operation}
    (hsame : f = { f₀ with stage := f.stage }) (hs : f.stage.Follows id a os) : s.Lives id f₀ a os f := by
  have hkey : f.key = f₀.key := by rw [hsame]
  have hbuilt : s.Asks p id ↔ f.stage = .built a := by
    rw [h.asks_iff hf]
    refine ⟨?_, fun hb => ⟨a, hb⟩⟩
    rintro ⟨b, hb⟩
    exact hb.trans (congrArg _ (hs.artifact_eq hb))
  refine ⟨hf, ?_, ?_, ?_, ?_, ?_, ?_, ?_, ?_, ?_, ?_, ?_, h.release_again hf⟩
  · rw [hsame]
    exact ⟨rfl, rfl, rfl, rfl⟩
  · rw [f.isReady_iff, hs.ready_iff]
  · rw [Compiled.isReady, Option.isSome_iff_exists]
  · intro n hn
    have hentry : (s.realm p).entryOf? id = some n := by
      rw [Realm.entryOf?, show (s.realm p).functions.get? id = _ from hf]
      exact hn
    exact h.isLive_iff.mpr ((h.owned p).live id n hentry)
  · intro hr loader
    obtain ⟨n, hn⟩ := f.isReady_iff.mp hr
    exact h.install_ready hf hn loader
  · rw [hbuilt, hs.built_iff]
  · intro l l' hl
    apply h.install_congr hf
    intro b hb
    rw [hs.artifact_eq hb]
    exact hl
  · intro hasks loader
    exact install_built hf (hbuilt.mp hasks) loader
  · intro hr xs
    obtain ⟨n, hn⟩ := f.isReady_iff.mp hr
    obtain ⟨lib, meaning, hm⟩ := h.models p
    exact ⟨_, by simp, (invoke_eq_ok hm hf hn xs).2⟩
  · intro hr hrel xs
    apply invoke_unready hf
    intro x
    rw [← hkey]
    rcases hst : f.stage with b | _ | n | _
    case ready => simp [f.isReady_iff.mpr ⟨n, hst⟩] at hr
    case released => exact absurd (hs.released_iff.mp hst) hrel
    all_goals simp only [Realm.invoke, hst]
  · intro hrel xs
    apply invoke_unready hf
    intro x
    simp only [Realm.invoke, hs.released_iff.mpr hrel, hkey]

end Session

/-- From the build of a function on, whatever else is done, except that nothing else is stored under
its name or dropped from there: the first attempt to install it decides whether it is ready, until
it is released. -/
theorem first_attempt_decides {s : Session} (hs : s.Reachable) {id : String} {q : Request} {f₀ : Compiled p}
    (hb : (s.build p id q).1 = .ok f₀) : ∃ a, f₀.stage = .built a ∧
    (∀ os : List Operation, (∀ o ∈ os, o.Spares p id) → ∃ f, (s.afterBuild p id q os).Lives id f₀ a os f) ∧
    (∀ os : List Operation, (∀ o ∈ os, o.Spares p id) →
      {i | ∃ loader, os[i]? = some (.install p id loader) ∧ (s.afterBuild p id q (os.take i)).Asks p id}.Subsingleton) ∧
    (∀ os later : List Operation, (∀ o ∈ os ++ later, o.Spares p id) → Ended id a os →
      ∃ f, (s.afterBuild p id q (os ++ later)).function? p id = some (.compiled f) ∧ f.isReady = false ∧
        ∃ cause, ∀ loader, (s.afterBuild p id q (os ++ later)).install p id loader =
          (.error (.failed (.installRejected cause)), s.afterBuild p id q (os ++ later))) ∧
    (∀ (os os' later : List Operation) (f : Compiled p) (n : Nat), (∀ o ∈ os ++ os', o.Spares p id) →
      (s.afterBuild p id q os).function? p id = some (.compiled f) → f.entry? = some n → .release p id ∈ os' →
      (s.afterBuild p id q (os ++ os' ++ later)).isLive ⟨p, n⟩ = false) := by
  obtain ⟨a, ha⟩ := Session.exists_built hb
  have hreach (os : List Operation) : (s.afterBuild p id q os).Reachable := (hs.after _).foldl os
  have hlives (os : List Operation) (hos : ∀ o ∈ os, o.Spares p id) :
      ∃ f, (s.afterBuild p id q os).Lives id f₀ a os f := by
    obtain ⟨f, hf, hsame, hfollows⟩ := hs.exists_follows hb ha hos
    exact ⟨f, (hreach os).lives hf hsame hfollows⟩
  refine ⟨a, ha, hlives, ?_, ?_, ?_⟩
  · intro os hos
    -- an attempt that comes later than the first finds it among the operations before
    have hlater {i j : Nat} {loader : Loader p} (hij : i < j) (hi : os[i]? = some (.install p id loader)) :
        ¬ (s.afterBuild p id q (os.take j)).Asks p id := by
      obtain ⟨f, hf⟩ := hlives (os.take j) (fun o ho => hos o (List.mem_of_mem_take ho))
      rw [hf.asks_iff]
      intro hnone
      have hmem : (os.take j)[i]? = some (.install p id loader) := by rw [List.getElem?_take_of_lt hij, hi]
      exact hnone.1 loader (List.mem_of_getElem? hmem)
    rintro i ⟨l, hi, hai⟩ j ⟨l', hj, haj⟩
    rcases Nat.lt_trichotomy i j with hij | rfl | hji
    · exact absurd haj (hlater hij hi)
    · rfl
    · exact absurd hai (hlater hji hj)
  · intro os later hos hended
    obtain ⟨f, hf, -, hfollows⟩ := hs.exists_follows hb ha hos
    have hover := hfollows.over_of_ended (hended.append later)
    refine ⟨f, hf, ?_, (hreach _).install_over hf hover⟩
    rcases hover with hst | hst
    · simp [Compiled.isReady, Compiled.entry?, hst]
    · simp [Compiled.isReady, Compiled.entry?, hst]
  · intro os os' later f n hos hf hn hrel
    rw [List.forall_mem_append] at hos
    have hstage : f.stage = .ready n := Compiled.entry?_eq_some.mp hn
    rw [List.append_assoc, Session.afterBuild, List.foldl_append]
    exact (hreach os).not_live_of_release hf hstage hos.2 hrel later

theorem first_attempt_decides_square : ∃ (s : Session) (q : Request) (f₀ f : Compiled .double) (n : Nat), s.Reachable ∧
    (s.build .double "square" q).1 = .ok f₀ ∧
    (s.afterBuild .double "square" q [.install .double "square" (.accepting .double)]).function? .double "square" =
      some (.compiled f) ∧ f.entry? = some n ∧
    (s.afterBuild .double "square" q
      [.install .double "square" (.accepting .double), .release .double "square"]).isLive ⟨.double, n⟩ = false := by
  let s : Session := { table := ⟨.empty, .empty⟩ }
  let q : Request := ⟨"square", "square", "x", [.identifier "x", .identifier "x", .operator "*"], {}⟩
  let o : Operation := .install .double "square" (.accepting .double)
  have hparse : Tree.parse s.scope .double false "x" q.tokens =
      .ok (.binary .mul (.identifier "x") (.identifier "x")) := rfl
  obtain ⟨b, hb⟩ := Artifact.exists_ofTokens (p := .double) {} hparse
  have hf₀ : (s.build .double "square" q).1 = .ok (.ofArtifact "square" "square" "x" b) := by
    unfold Session.build Session.compiledOf
    rw [show Artifact.ofTokens s.scope q.settings q.parameter q.tokens = .ok b from hb]
    rfl
  have hs : s.Reachable := .start .empty
  obtain ⟨a, -, hlives, -, -, hdead⟩ := first_attempt_decides hs hf₀
  obtain ⟨f, hf⟩ := hlives [o] (by simp [o, Operation.Spares])
  have hready : f.isReady = true := by
    rw [hf.ready_iff]
    exact ⟨⟨.accepting .double, ⟨[], [], rfl, by simp⟩, rfl⟩, by simp [o]⟩
  obtain ⟨n, hn⟩ := hf.entry_iff.mpr hready
  refine ⟨s, q, _, f, n, hs, hf₀, hf.kept, hn, ?_⟩
  exact hdead [o] [.release .double "square"] [] f n (by simp [o, Operation.Spares]) hf.kept hn (by simp)

end Phasor
