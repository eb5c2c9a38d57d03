import Phasor.Session
import Phasor.Proofs.Evaluation

namespace Phasor

variable {p : Precision}

namespace Dictionary

variable {κ α : Type} [DecidableEq κ]

theorem get?_filter (es : List (κ × α)) (q : κ → Bool) {k : κ} (hk : q k = true) :
    get? ⟨es.filter (fun e => q e.1)⟩ k = get? ⟨es⟩ k := by
  unfold get?
  induction es with
  | nil => rfl
  | cons e es ih =>
    obtain ⟨i, b⟩ := e
    by_cases hj : k = i
    · subst hj
      simp [hk]
    · by_cases hq : q i = true
      · simp only [List.filter_cons, hq, ↓reduceIte, List.lookup_cons, beq_false_of_ne hj]
        exact ih
      · simp only [List.filter_cons, hq, Bool.false_eq_true, ↓reduceIte, List.lookup_cons, beq_false_of_ne hj]
        exact ih

theorem mem_values_of_get? {d : Dictionary κ α} {k : κ} {a : α} (h : d.get? k = some a) : a ∈ d.values := by
  obtain ⟨es⟩ := d
  unfold get? at h
  unfold values
  induction es with
  | nil => simp at h
  | cons e es ih =>
    obtain ⟨i, b⟩ := e
    rw [List.lookup_cons] at h
    split at h
    · rw [← Option.some.inj h]
      exact List.mem_cons_self
    · exact List.mem_cons_of_mem _ (ih h)

theorem mem_values_insert {d : Dictionary κ α} {k : κ} {a b : α} (h : b ∈ (d.insert k a).values) :
    b = a ∨ b ∈ d.values := by
  unfold insert values at *
  split at h
  · simp only [List.map_map, List.mem_map, Function.comp_apply] at h
    obtain ⟨e, he, hb⟩ := h
    by_cases hk : e.1 = k
    · simp only [hk, ↓reduceIte] at hb
      exact .inl hb.symm
    · simp only [hk, ↓reduceIte] at hb
      exact .inr (List.mem_map.mpr ⟨e, he, hb⟩)
  · simp only [List.map_append, List.map_cons, List.map_nil, List.mem_append, List.mem_singleton] at h
    exact h.symm

theorem mem_values_erase {d : Dictionary κ α} {k : κ} {b : α} (h : b ∈ (d.erase k).values) : b ∈ d.values := by
  unfold erase values at *
  obtain ⟨e, he, hb⟩ := List.mem_map.mp h
  exact List.mem_map.mpr ⟨e, (List.mem_filter.mp he).1, hb⟩

end Dictionary

def Callable.Backed (lib : Library p) : Callable p → Prop
  | builtin _ => True
  | compiled f =>
    match f.stage with
    | .built a => (∃ scope settings parameter tokens, Artifact.ofTokens scope settings parameter tokens = .ok a) ∧
        ∀ id ∈ a.callees, id ∈ lib.ids
    | .ready id => id ∈ lib.ids
    | .spent | .released => True

namespace Callable.Backed

variable {lib lib' : Library p} {c : Callable p}

theorem held (h : c.Backed lib) : ∀ id ∈ c.held, id ∈ lib.ids := by
  intro id hid
  cases c with
  | builtin f => simp [Callable.held] at hid
  | compiled f =>
    unfold Callable.Backed at h
    simp only [Callable.held, Compiled.held] at hid
    rcases hs : f.stage with a | _ | n | _ <;> simp only [hs] at h hid
    · exact h.2 id hid
    · simp at hid
    · rw [List.mem_singleton.mp hid]
      exact h
    · simp at hid

theorem of_held (h : c.Backed lib) (hs : ∀ id ∈ c.held, id ∈ lib'.ids) : c.Backed lib' := by
  cases c with
  | builtin f => trivial
  | compiled f =>
    unfold Callable.Backed at *
    simp only [Callable.held, Compiled.held] at hs
    rcases hst : f.stage with a | _ | n | _ <;> simp only [hst] at h hs ⊢
    · exact ⟨h.1, hs⟩
    · exact hs n (List.mem_singleton_self n)

end Callable.Backed

namespace Library

variable {lib : Library p}

theorem Linked.exists_kept (h : Linked lib) (held : List Nat) :
    ∃ lib' : Library p, lib'.functions = Realm.kept held lib.functions ∧ lib' ⊆ lib ∧ lib'.Linked ∧
      ∀ id ∈ held, id ∈ lib.ids → id ∈ lib'.ids := by
  induction h generalizing held with
  | nil => exact ⟨[], rfl, List.Subset.refl _, .nil, by simp⟩
  | @cons f lib calls fresh rest ih =>
    have hfun : functions (f :: lib) = f.installed :: lib.functions := rfl
    by_cases hf : f.id ∈ held
    · -- the callees of a kept function are held as well, so they are found further down
      obtain ⟨lib', hfun', hsub, hlinked, hheld⟩ := ih (f.installed.callees ++ held)
      have hf' : f.installed.id ∈ held := hf
      refine ⟨f :: lib', ?_, List.cons_subset_cons _ hsub, .cons ?_ ?_ hlinked, ?_⟩
      · rw [hfun, Realm.kept, if_pos hf', ← hfun']
        rfl
      · intro id hid
        apply hheld id _ (calls id hid)
        rw [f.callees]
        exact List.mem_append_left _ hid
      · intro hid
        obtain ⟨g, hg, hgid⟩ := mem_ids.mp hid
        exact fresh (mem_ids.mpr ⟨g, hsub hg, hgid⟩)
      · intro id hid hmem
        rcases List.mem_cons.mp hmem with rfl | hmem
        · exact List.mem_cons_self
        · exact List.mem_cons_of_mem _ (hheld id (List.mem_append_right _ hid) hmem)
    · obtain ⟨lib', hfun', hsub, hlinked, hheld⟩ := ih held
      have hf' : f.installed.id ∉ held := hf
      refine ⟨lib', ?_, List.Subset.trans hsub (List.subset_cons_self _ _), hlinked, ?_⟩
      · rw [hfun, Realm.kept, if_neg hf', hfun']
      · intro id hid hmem
        rcases List.mem_cons.mp hmem with rfl | hmem
        · exact absurd hid hf
        · exact hheld id hid hmem

end Library

def Member.release (f : Member p) : Member p :=
  { f with installed := { f.installed with released := true }, code := f.code, callees := f.callees }

namespace Library

variable {lib : Library p}

def release (lib : Library p) (n : Nat) : Library p :=
  lib.map (fun f => if f.id = n then f.release else f)

theorem mem_release {n : Nat} {g : Member p} (h : g ∈ lib.release n) : ∃ f ∈ lib, g = f ∨ g = f.release := by
  obtain ⟨f, hf, rfl⟩ := List.mem_map.mp h
  refine ⟨f, hf, ?_⟩
  by_cases hn : f.id = n
  · exact .inr (if_pos hn)
  · exact .inl (if_neg hn)

theorem ids_release (lib : Library p) (n : Nat) : (lib.release n).ids = lib.ids := by
  unfold release ids
  rw [List.map_map]
  apply List.map_congr_left
  intro f _
  by_cases hn : f.id = n
  · simp only [Function.comp_apply, hn, ↓reduceIte]
    exact hn
  · simp [hn]

theorem functions_release (lib : Library p) (n : Nat) : (lib.release n).functions =
    lib.functions.map (fun f => if f.id = n then { f with released := true } else f) := by
  unfold release functions
  rw [List.map_map, List.map_map]
  apply List.map_congr_left
  intro f _
  by_cases hn : f.id = n
  · have hn' : f.installed.id = n := hn
    simp only [Function.comp_apply, hn, hn', ↓reduceIte, Member.release]
  · have hn' : f.installed.id ≠ n := hn
    simp [hn, hn']

theorem Linked.release (h : Linked lib) (n : Nat) : (lib.release n).Linked := by
  induction h with
  | nil => exact .nil
  | @cons f lib calls fresh rest ih =>
    have hids := ids_release lib n
    unfold Library.release at *
    rw [List.map_cons]
    by_cases hn : f.id = n
    · rw [if_pos hn]
      exact .cons (hids ▸ calls) (hids ▸ fresh) ih
    · rw [if_neg hn]
      exact .cons (hids ▸ calls) (hids ▸ fresh) ih

end Library

structure Realm.Models (r : Realm p) (lib : Library p) (meaning : Nat → p.Value → p.Value) : Prop where
  installed : r.installed = lib.functions
  linked : lib.Linked
  means : lib.Means meaning
  rests : r.memory.AtRest lib
  numbered : ∀ id ∈ lib.ids, id < r.nextId
  backed : ∀ c ∈ r.functions.values, c.Backed lib

namespace Realm.Models

variable {r : Realm p} {lib : Library p} {meaning : Nat → p.Value → p.Value}

theorem with_memory (h : r.Models lib meaning) {m : Memory p} (hm : m.AtRest lib) :
    ({ r with memory := m } : Realm p).Models lib meaning :=
  ⟨h.installed, h.linked, h.means, hm, h.numbered, h.backed⟩

theorem with_functions (h : r.Models lib meaning) {functions : Dictionary String (Callable p)}
    (hf : ∀ c ∈ functions.values, c.Backed lib) :
    ({ r with functions := functions } : Realm p).Models lib meaning :=
  ⟨h.installed, h.linked, h.means, h.rests, h.numbered, hf⟩

theorem sweep (h : r.Models lib meaning) : ∃ lib', r.sweep.Models lib' meaning := by
  obtain ⟨lib', hfun, hsub, hlinked, hheld⟩ := h.linked.exists_kept (r.functions.values.flatMap Callable.held)
  rw [← h.installed] at hfun
  refine ⟨lib', hfun.symm, hlinked, fun f hf => h.means f (hsub hf), ?_, ?_, ?_⟩
  · intro f hf
    obtain ⟨a, ha, hrest⟩ := h.rests f (hsub hf)
    let kept (k : Nat) : Bool := lib'.functions.any (·.id = k)
    have hkept : kept f.id = true := by
      simp only [kept, List.any_eq_true]
      exact ⟨f.installed, List.mem_map_of_mem hf, by simp [Member.id]⟩
    refine ⟨a, ?_, hrest⟩
    have hget := Dictionary.get?_filter r.memory.arenas.entries kept hkept
    simp only [kept, hfun] at hget
    exact hget.trans ha
  · intro id hid
    obtain ⟨f, hf, rfl⟩ := Library.mem_ids.mp hid
    exact h.numbered f.id (Library.mem_ids.mpr ⟨f, hsub hf, rfl⟩)
  · intro c hc
    have hb := h.backed c hc
    apply hb.of_held
    intro id hid
    exact hheld id (List.mem_flatMap.mpr ⟨c, hc, hid⟩) (hb.held id hid)

theorem put (h : r.Models lib meaning) {f : Callable p} (hf : f.Backed lib) (id : String) :
    ∃ lib', (r.put id f).Models lib' meaning := by
  apply Models.sweep
  apply h.with_functions
  intro c hc
  rcases Dictionary.mem_values_insert hc with rfl | hc
  · exact hf
  · exact h.backed c hc

theorem drop (h : r.Models lib meaning) (id : String) : ∃ lib', (r.drop id).Models lib' meaning := by
  apply Models.sweep
  apply h.with_functions
  intro c hc
  exact h.backed c (Dictionary.mem_values_erase hc)

theorem load (h : r.Models lib meaning) {a : Artifact p}
    (ha : ∃ scope settings parameter tokens, Artifact.ofTokens scope settings parameter tokens = .ok a)
    (hc : ∀ id ∈ a.callees, id ∈ lib.ids) :
    ∃ lib' F, (r.load a).Models lib' (fun k => if k = r.nextId then F else meaning k) ∧
      lib'.ids = r.nextId :: lib.ids := by
  obtain ⟨scope, settings, parameter, tokens, hbuilt⟩ := ha
  let f : Member p := ⟨⟨r.nextId, a.code, a.callees, false⟩, scope, settings, parameter, tokens, a, hbuilt, rfl, rfl⟩
  -- numbers are never given twice, so the functions that are there keep their meaning
  have fresh : f.id ∉ lib.ids := by
    intro hid
    exact Nat.lt_irrefl _ (h.numbered f.id hid)
  obtain ⟨F, hF⟩ := h.means.extend h.linked hc fresh
  have hget (k : Nat) := Dictionary.get?_insert r.memory.arenas r.nextId a.arena k
  refine ⟨f :: lib, F, ⟨?_, .cons hc fresh h.linked, hF, ?_, ?_, ?_⟩, rfl⟩
  · simp only [Realm.load, h.installed]
    rfl
  · rw [Memory.atRest_cons]
    constructor
    · exact ⟨a.arena, (hget f.id).trans (if_pos rfl), a.rests_arena⟩
    · intro g hg
      obtain ⟨b, hb, hrest⟩ := h.rests g hg
      have hne : g.id ≠ r.nextId := Nat.ne_of_lt (h.numbered g.id (Library.mem_ids.mpr ⟨g, hg, rfl⟩))
      refine ⟨b, ?_, hrest⟩
      exact ((hget g.id).trans (if_neg hne)).trans hb
  · intro id hid
    rcases List.mem_cons.mp hid with rfl | hid
    · exact Nat.lt_succ_self _
    · exact Nat.lt_succ_of_lt (h.numbered id hid)
  · intro c hmem
    have hb := h.backed c hmem
    apply hb.of_held
    intro id hid
    exact List.mem_cons_of_mem _ (hb.held id hid)

theorem release (h : r.Models lib meaning) (n : Nat) : (r.release n).Models (lib.release n) meaning := by
  refine ⟨?_, h.linked.release n, ?_, ?_, ?_, ?_⟩
  · rw [Library.functions_release, ← h.installed]
    rfl
  · intro g hg
    obtain ⟨f, hf, rfl | rfl⟩ := Library.mem_release hg
    · exact h.means g hf
    · exact h.means f hf
  · intro g hg
    obtain ⟨f, hf, rfl | rfl⟩ := Library.mem_release hg
    · exact h.rests g hf
    · exact h.rests f hf
  · rw [Library.ids_release]
    exact h.numbered
  · intro c hc
    have hb := h.backed c hc
    apply hb.of_held
    rw [Library.ids_release]
    exact hb.held

theorem install (h : r.Models lib meaning) {f : Compiled p} (hf : (Callable.compiled f).Backed lib)
    (loader : Loader p) :
    ∃ lib' meaning', (r.install f loader).2.2.Models lib' meaning' ∧
      (Callable.compiled (r.install f loader).2.1).Backed lib' ∧ r.nextId ≤ (r.install f loader).2.2.nextId ∧
      ∀ n < r.nextId, meaning' n = meaning n := by
  unfold Realm.install Compiled.install
  rcases hs : f.stage with a | _ | n | _
  · have hb := hf
    simp only [Callable.Backed, hs] at hb
    simp only
    rcases hl : loader a with message | _
    · exact ⟨lib, meaning, h, trivial, Nat.le_refl _, fun _ _ => rfl⟩
    · obtain ⟨lib', F, hm, hids⟩ := h.load hb.1 hb.2
      refine ⟨lib', _, hm, ?_, Nat.le_succ _, ?_⟩
      · change r.nextId ∈ lib'.ids
        rw [hids]
        exact List.mem_cons_self
      · intro n hn
        exact if_neg (Nat.ne_of_lt hn)
  · exact ⟨lib, meaning, h, hf, Nat.le_refl _, fun _ _ => rfl⟩
  · exact ⟨lib, meaning, h, hf, Nat.le_refl _, fun _ _ => rfl⟩
  · exact ⟨lib, meaning, h, hf, Nat.le_refl _, fun _ _ => rfl⟩

end Realm.Models

theorem Memory.AtRest.resetCursor {m : Memory p} {lib : Library p} (h : m.AtRest lib) (n : Nat) :
    (m.resetCursor n).AtRest lib := by
  unfold Memory.resetCursor
  split
  · rename_i a ha
    intro f hf
    obtain ⟨r, hr, hrest⟩ := h f hf
    by_cases hn : f.id = n
    · subst hn
      obtain rfl := Option.some.inj (ha.symm.trans hr)
      refine ⟨a.reset, ?_, hrest.capacity, hrest.pinned, rfl⟩
      rw [Dictionary.get?_insert, if_pos rfl]
    · refine ⟨r, ?_, hrest⟩
      rw [Dictionary.get?_insert, if_neg hn, hr]
  · exact h

namespace Realm.Models

variable {r : Realm p} {lib : Library p} {meaning : Nat → p.Value → p.Value}

theorem invoke_ready (h : r.Models lib meaning) {f : Compiled p} {n : Nat} (hs : f.stage = .ready n)
    (hn : n ∈ lib.ids) (x : p.Value) :
    ∃ m, m.AtRest lib ∧ r.invoke (.compiled f) x = (.ok (meaning n x), { r with memory := m }) := by
  obtain ⟨m, he, hm⟩ := h.linked.enter h.means hn (h.rests.resetCursor n) x
  rw [← h.installed] at he
  exact ⟨m, hm, by simp only [Realm.invoke, hs, he]⟩

theorem invokeAll_ready (h : r.Models lib meaning) {f : Compiled p} {n : Nat} (hs : f.stage = .ready n)
    (hn : n ∈ lib.ids) (xs : List p.Value) :
    ∃ m, m.AtRest lib ∧
      r.invokeAll (.compiled f) xs = (xs.map (fun x => .ok (meaning n x)), { r with memory := m }) := by
  induction xs generalizing r with
  | nil => exact ⟨r.memory, h.rests, rfl⟩
  | cons x xs ih =>
    obtain ⟨m₁, hm₁, h₁⟩ := h.invoke_ready hs hn x
    obtain ⟨m₂, hm₂, h₂⟩ := ih (h.with_memory hm₁)
    exact ⟨m₂, hm₂, by simp only [Realm.invokeAll, h₁, h₂, List.map_cons]⟩

theorem invokeAll (h : r.Models lib meaning) {c : Callable p} (hc : c.Backed lib) (xs : List p.Value) :
    ∃ m, m.AtRest lib ∧ (r.invokeAll c xs).2 = { r with memory := m } := by
  have hsame (h₁ : ∀ x, (r.invoke c x).2 = r) : (r.invokeAll c xs).2 = r := by
    induction xs with
    | nil => rfl
    | cons x xs ih => simp only [Realm.invokeAll, h₁ x, ih]
  cases c with
  | builtin f => exact ⟨r.memory, h.rests, hsame (fun x => rfl)⟩
  | compiled f =>
    rcases hs : f.stage with a | _ | n | _
    · exact ⟨r.memory, h.rests, hsame (fun x => by simp only [Realm.invoke, hs])⟩
    · exact ⟨r.memory, h.rests, hsame (fun x => by simp only [Realm.invoke, hs])⟩
    · have hn : n ∈ lib.ids := by simpa only [Callable.Backed, hs] using hc
      obtain ⟨m, hm, hall⟩ := h.invokeAll_ready hs hn xs
      exact ⟨m, hm, by rw [hall]⟩
    · exact ⟨r.memory, h.rests, hsame (fun x => by simp only [Realm.invoke, hs])⟩

end Realm.Models

end Phasor
