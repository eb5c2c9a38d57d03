import Mathlib.Logic.Relation
import Phasor.Proofs.Descent
import Phasor.Proofs.Origin

namespace Phasor

variable {p : Precision}

namespace Dictionary

variable {κ α : Type} [DecidableEq κ]

theorem exists_get?_of_mem_values {d : Dictionary κ α} (hk : d.keys.Nodup) {a : α} (ha : a ∈ d.values) :
    ∃ k, d.get? k = some a := by
  obtain ⟨es⟩ := d
  unfold keys at hk
  unfold values at ha
  unfold get?
  induction es with
  | nil => cases ha
  | cons e es ih =>
    obtain ⟨i, b⟩ := e
    obtain ⟨hfresh, hk⟩ := List.nodup_cons.mp hk
    rcases List.mem_cons.mp ha with rfl | ha
    · exact ⟨i, by simp⟩
    · obtain ⟨k, hget⟩ := ih hk ha
      refine ⟨k, ?_⟩
      have hne : k ≠ i := by
        rintro rfl
        exact hfresh (mem_keys.mpr (by rw [get?, hget]; rfl))
      simpa [List.lookup_cons, beq_false_of_ne hne] using hget

theorem of_get?_filter {es : List (κ × α)} {q : κ → Bool} {k : κ}
    (h : (get? ⟨es.filter (fun e => q e.1)⟩ k).isSome = true) : q k = true := by
  obtain ⟨e, he, rfl⟩ := List.mem_map.mp (mem_keys.mpr h)
  exact (List.mem_filter.mp he).2

end Dictionary

namespace Realm

theorem kept_kept (held : List Nat) (fs : List Installed) : kept held (kept held fs) = kept held fs := by
  induction fs generalizing held with
  | nil => rfl
  | cons f fs ih =>
    by_cases hf : f.id ∈ held
    · rw [kept, if_pos hf, kept, if_pos hf, ih]
    · rw [kept, if_neg hf, ih]

theorem mem_kept {held : List Nat} {fs : List Installed} {g : Installed} (h : g ∈ kept held fs) :
    g.id ∈ held ∨ ∃ f ∈ kept held fs, g.id ∈ f.callees := by
  induction fs generalizing held with
  | nil => cases h
  | cons f fs ih =>
    by_cases hf : f.id ∈ held
    · rw [kept, if_pos hf] at h ⊢
      rcases List.mem_cons.mp h with rfl | h
      · exact .inl hf
      · rcases ih h with hheld | ⟨f', hf', hcall⟩
        · rcases List.mem_append.mp hheld with hcall | hheld
          · exact .inr ⟨f, List.mem_cons_self, hcall⟩
          · exact .inl hheld
        · exact .inr ⟨f', List.mem_cons_of_mem f hf', hcall⟩
    · rw [kept, if_neg hf] at h ⊢
      exact ih h

structure Tidy (r : Realm p) : Prop where
  keys : r.functions.keys.Nodup
  kept : kept (r.functions.values.flatMap Callable.held) r.installed = r.installed
  arenas : ∀ n, (r.memory.shape n).isSome = true → ∃ g ∈ r.installed, g.id = n

theorem tidy_sweep {r : Realm p} (h : r.functions.keys.Nodup) : r.sweep.Tidy := by
  refine ⟨h, kept_kept _ _, ?_⟩
  intro n hn
  have hget : (r.sweep.memory.arenas.get? n).isSome = true := by simpa [Memory.shape] using hn
  have hany := Dictionary.of_get?_filter (q := fun k => r.sweep.installed.any (·.id = k)) hget
  obtain ⟨g, hg, hid⟩ := List.any_eq_true.mp hany
  exact ⟨g, hg, by simpa using hid⟩

theorem Effect.tidy {offered : Artifact p → Prop} {r r' : Realm p} (h : Effect offered r r') (ht : r.Tidy) :
    r'.Tidy := by
  cases h with
  | runs hm =>
    refine ⟨ht.keys, ht.kept, ?_⟩
    intro n hn
    exact ht.arenas n (by rwa [hm] at hn)
  | swept hs hk => exact tidy_sweep (hk ht.keys)

end Realm

namespace Session

theorem Reachable.tidy {s : Session} (h : s.Reachable) (p : Precision) : (s.realm p).Tidy := by
  induction h with
  | start constants =>
    cases p <;> exact ⟨.nil, rfl, by simp [realm, Memory.shape, Memory.initial, Dictionary.get?, Dictionary.empty]⟩
  | after h o ih => exact (effect_after h o p).tidy ih

inductive Owns (s : Session) (p : Precision) (n : Nat) : Prop
  | ready {id : String} {f : Compiled p} (hf : s.function? p id = some (.compiled f)) (hs : f.stage = .ready n)
  | callee {g : Installed} (hg : g ∈ (s.realm p).installed) (hn : n ∈ g.callees)
  | built {id : String} {f : Compiled p} {a : Artifact p} (hf : s.function? p id = some (.compiled f))
      (hs : f.stage = .built a) (hn : n ∈ a.callees)

theorem Reachable.owns_iff {s : Session} (h : s.Reachable) (p : Precision) (n : Nat) :
    (∃ g ∈ (s.realm p).installed, g.id = n) ↔ s.Owns p n := by
  obtain ⟨lib, meaning, hm⟩ := h.models p
  have ht := h.tidy p
  constructor
  · rintro ⟨g, hg, rfl⟩
    -- it has survived the last sweep, so something holds it
    rw [← ht.kept] at hg
    rcases Realm.mem_kept hg with hheld | ⟨f, hf, hcall⟩
    · obtain ⟨c, hc, hid⟩ := List.mem_flatMap.mp hheld
      obtain ⟨id, hget⟩ := Dictionary.exists_get?_of_mem_values ht.keys hc
      cases c with
      | builtin f => cases hid
      | compiled f =>
        simp only [Callable.held, Compiled.held] at hid
        rcases hs : f.stage with a | _ | k | _ <;> simp only [hs] at hid
        · exact .built hget hs hid
        · cases hid
        · exact .ready hget (List.mem_singleton.mp hid ▸ hs)
        · cases hid
    · rw [ht.kept] at hf
      exact .callee hf hcall
  · intro ho
    rw [← hm.mem_ids]
    cases ho with
    | ready hf hs =>
      have hb := backed_function hm hf
      simpa only [Callable.Backed, hs] using hb
    | callee hg hn =>
      rw [hm.installed] at hg
      obtain ⟨f, hf, rfl⟩ := List.mem_map.mp hg
      exact hm.linked.calls_mem hf n (f.callees ▸ hn)
    | built hf hs hn =>
      have hb := backed_function hm hf
      simp only [Callable.Backed, hs] at hb
      exact hb.2 n hn

end Session

def Realm.Calls (r : Realm p) (n k : Nat) : Prop :=
  ∃ g ∈ r.installed, g.id = n ∧ k ∈ g.callees

namespace Session

variable {constants : Dictionary String Constant} {os : List Operation}

theorem run_calls_lt {n k : Nat} (h : ((run constants os).realm p).Calls n k) : k < n := by
  obtain ⟨g, hg, rfl, hk⟩ := h
  obtain ⟨a, hb, hc⟩ := (traced constants os p).installed g hg
  exact hb.callees_lt k (hc.callees ▸ hk)

theorem run_calls_trans_lt {n k : Nat} (h : Relation.TransGen ((run constants os).realm p).Calls n k) : k < n := by
  induction h with
  | single h => exact run_calls_lt h
  | tail _ h ih => exact Nat.lt_trans (run_calls_lt h) ih

theorem run_installed_of_calls {n k : Nat} (hn : ∃ g ∈ ((run constants os).realm p).installed, g.id = n)
    (h : Relation.ReflTransGen ((run constants os).realm p).Calls n k) :
    ∃ g ∈ ((run constants os).realm p).installed, g.id = k := by
  induction h with
  | refl => exact hn
  | tail _ h ih =>
    obtain ⟨g, hg, -, hk⟩ := h
    exact ((reachable_run constants os).owns_iff p _).mpr (.callee hg hk)

theorem run_active_pairwise {n : Nat} {ws : List Word} {m : Memory p} {active : List Nat}
    (hw : ws.length = p.parameters.length) (ha : Machine.Active ((run constants os).realm p).installed n ws m active) :
    active.Pairwise (· > ·) := by
  obtain ⟨lib, meaning, hm⟩ := (reachable_run constants os).models p
  have hdown : ∀ f ∈ lib, ∀ id ∈ f.artifact.callees, id < f.id := by
    intro f hf id hid
    have hg : f.installed ∈ ((run constants os).realm p).installed := by
      rw [hm.installed]
      exact List.mem_map_of_mem hf
    have hcalls : ((run constants os).realm p).Calls f.id id := ⟨f.installed, hg, rfl, by rwa [f.callees]⟩
    exact run_calls_lt hcalls
  rw [hm.installed] at ha
  exact (Library.active_pairwise hdown hw ha).1

theorem Reachable.callWithin_ready {s : Session} (h : s.Reachable) {id : String} {f : Compiled p} {n : Nat}
    (hf : s.function? p id = some (.compiled f)) (hs : f.stage = .ready n) (x : p.Value) :
    ∃ l m, Machine.callWithin (s.realm p).installed (s.realm p).installed.length n
      (Machine.passArgument p x ((s.realm p).memory.resetCursor n)).1
      (Machine.passArgument p x ((s.realm p).memory.resetCursor n)).2 = some (l, m) := by
  obtain ⟨lib, meaning, hm⟩ := h.models p
  have hn : n ∈ lib.ids := (invoke_eq_ok hm hf hs []).1
  have hrest := (hm.rests.resetCursor n).of_arenas (Machine.passArgument_arenas x _)
  have hx := Machine.passes_passArgument lib.ids x ((s.realm p).memory.resetCursor n)
  obtain ⟨l, m, hcall, -⟩ := hm.linked.serves hm.means n hn _ _ x hrest hx
  refine ⟨l, m, ?_⟩
  rw [hm.installed, hm.linked.callWithin_eq (by simp [Library.functions]) n hx.length]
  exact hcall

end Session

/-- Through every run, a function stays installed exactly as long as something keeps it, and its
arena with it. So whatever a ready function calls, directly or through others, is installed as it
was built, with all slots and pinned constants. A function calls only what was installed before it
was built; none calls itself, and a call ends without entering a function that has not returned,
even if nested calls may look for their function anywhere. -/
theorem callees_stay_installed (constants : Dictionary String Constant) (os : List Operation) (p : Precision) :
    (∀ n, (∃ g ∈ ((Session.run constants os).realm p).installed, g.id = n) ↔ (Session.run constants os).Owns p n) ∧
    (∀ n, (∃ g ∈ ((Session.run constants os).realm p).installed, g.id = n) ↔
      (((Session.run constants os).realm p).memory.arenas.get? n).isSome = true) ∧
    (∀ id f n k, (Session.run constants os).function? p id = some (.compiled f) → f.stage = .ready n →
      Relation.ReflTransGen ((Session.run constants os).realm p).Calls n k →
        ∃ g ∈ ((Session.run constants os).realm p).installed, g.id = k ∧
          ∃ a : Artifact p, Session.BuiltIn constants os k a ∧ ((Session.run constants os).realm p).Carries g a) ∧
    (∀ g ∈ ((Session.run constants os).realm p).installed,
      ∃ a : Artifact p, Session.BuiltIn constants os g.id a ∧ ((Session.run constants os).realm p).Carries g a) ∧
    (∀ n, ¬ Relation.TransGen ((Session.run constants os).realm p).Calls n n) ∧
    (∀ id f n, (Session.run constants os).function? p id = some (.compiled f) → f.stage = .ready n → ∀ x : p.Value,
      ∃ l m, Machine.callWithin ((Session.run constants os).realm p).installed
        ((Session.run constants os).realm p).installed.length n
        (Machine.passArgument p x (((Session.run constants os).realm p).memory.resetCursor n)).1
        (Machine.passArgument p x (((Session.run constants os).realm p).memory.resetCursor n)).2 = some (l, m)) ∧
    ∀ n ws (m : Memory p) active, ws.length = p.parameters.length →
      Machine.Active ((Session.run constants os).realm p).installed n ws m active → active.Nodup := by
  have hs := Session.reachable_run constants os
  have htraced := (Session.traced constants os p).installed
  refine ⟨hs.owns_iff p, ?_, ?_, htraced, ?_, ?_, ?_⟩
  · intro n
    constructor
    · rintro ⟨g, hg, rfl⟩
      obtain ⟨a, -, hc⟩ := htraced g hg
      have hshape := hc.shape
      simp only [Memory.shape, Option.map_eq_some_iff] at hshape
      obtain ⟨r, hr, -⟩ := hshape
      rw [hr]
      rfl
    · intro hn
      exact (hs.tidy p).arenas n (by simpa [Memory.shape] using hn)
  · intro id f n k hf hn hcalls
    obtain ⟨g, hg, rfl⟩ := Session.run_installed_of_calls ((hs.owns_iff p n).mpr (.ready hf hn)) hcalls
    exact ⟨g, hg, rfl, htraced g hg⟩
  · intro n hn
    exact Nat.lt_irrefl n (Session.run_calls_trans_lt hn)
  · intro id f n hf hn x
    exact hs.callWithin_ready hf hn x
  · intro n ws m active hw ha
    exact (Session.run_active_pairwise hw ha).imp Nat.ne_of_gt

theorem Callable.exists_ready_of_entry? {c : Callable p} {n : Nat} (h : c.entry? = some n) :
    ∃ f, c = .compiled f ∧ f.stage = .ready n := by
  cases c with
  | builtin f => cases h
  | compiled f =>
    refine ⟨f, rfl, ?_⟩
    simp only [Callable.entry?, Compiled.entry?] at h
    split at h
    · rename_i hs
      rw [hs, Option.some.inj h]
    · cases h

theorem callees_stay_installed_square : ∃ (os : List Operation) (f : Compiled .double),
    (Session.run .empty os).function? .double "quad" = some (.compiled f) ∧ f.stage = .ready 1 ∧
    ((Session.run .empty os).function? .double "square").isNone = true ∧
    ((Session.run .empty os).realm .double).Calls 1 0 ∧
    ∃ g ∈ ((Session.run .empty os).realm .double).installed, g.id = 0 ∧
      ∃ a : Artifact .double, Session.BuiltIn .empty os 0 a ∧ ((Session.run .empty os).realm .double).Carries g a := by
  let square : Request := ⟨"square", "square", "x", [.identifier "x", .identifier "x", .operator "*"], {}⟩
  let quad : Request := ⟨"quad", "quad", "x", [.identifier "x", .call "square", .call "square"], {}⟩
  let os : List Operation := [.compile .double "square" square (.accepting .double),
    .compile .double "quad" quad (.accepting .double), .release .double "square", .drop .double "square"]
  have hentry : ((Session.run .empty os).function? .double "quad").bind Callable.entry? = some 1 := by decide +kernel
  have hdropped : ((Session.run .empty os).function? .double "square").isNone = true := by decide +kernel
  have hany : ((Session.run .empty os).realm .double).installed.any (fun g => g.id = 1 ∧ 0 ∈ g.callees) = true := by
    decide +kernel
  obtain ⟨c, hf, he⟩ := Option.bind_eq_some_iff.mp hentry
  obtain ⟨f, rfl, hs⟩ := Callable.exists_ready_of_entry? he
  obtain ⟨g, hg, hcall⟩ := List.any_eq_true.mp hany
  have hcalls : ((Session.run .empty os).realm .double).Calls 1 0 := ⟨g, hg, by simpa using hcall⟩
  obtain ⟨-, -, hkept, -⟩ := callees_stay_installed .empty os .double
  exact ⟨os, f, hf, hs, hdropped, hcalls, hkept "quad" f 1 0 hf hs (.single hcalls)⟩

end Phasor
