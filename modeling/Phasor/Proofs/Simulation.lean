import Mathlib.Data.List.Forall2
import Phasor.Proofs.Library

/-!
The code of a builder, run while it is built: every operand on the builder's stack holds the value
of the tree that it was built from, and keeps it until it is used. An operand that is held by its
address lies in a slot that was claimed before, and no later step writes there.
-/

namespace Phasor

variable {p : Precision}

structure Snapshot (p : Precision) where
  values : Array Word
  memory : Memory p

structure Activation (p : Precision) where
  call : Machine.Caller p
  meaning : Nat → p.Value → p.Value
  library : Library p
  final : Builder p
  owner : Nat
  words : List Word
  argument : p.Value
  start : Memory p
  serves : Machine.Serves call meaning library
  rests : start.AtRest library
  fresh : owner ∉ library.ids
  known : ∀ id ∈ final.callees, id ∈ library.ids
  passes : Machine.Passes p (owner :: library.ids) start words argument

namespace Activation

variable (A : Activation p)

def step? (s : Snapshot p) (i : Instr) : Option (Word × Memory p) :=
  Machine.step? A.call A.final.code A.owner s.values s.memory i

def Proper (s : Snapshot p) : Instr → Prop
  | .callEntry _ target args => ∃ id ws x, s.values[target]? = some (.entry id) ∧ id ∈ A.library.ids ∧
      Machine.words s.values args = some ws ∧ Machine.Passes p A.library.ids s.memory ws x
  | _ => True

inductive Steps : List Instr → Snapshot p → Prop
  | start : Steps [] ⟨A.words.toArray, A.start⟩
  | step {is : List Instr} {s : Snapshot p} {i : Instr} {w : Word} {m : Memory p} (h : Steps is s)
      (proper : A.Proper s i) (hs : A.step? s i = some (w, m)) (rests : m.AtRest A.library)
      (outer : A.start.AgreesOff (A.owner :: A.library.ids) m) : Steps (is ++ [i]) ⟨s.values.push w, m⟩

/-- A place that nothing writes to any more once `n` slots of the owner's arena were claimed. -/
def Stable (n : Nat) : Place → Prop
  | .argument => True
  | .slot o i => o ∉ A.library.ids ∧ (o = A.owner → i < n)
  | .pinned o _ => o ∉ A.library.ids

structure Grows (n : Nat) (s s' : Snapshot p) : Prop where
  values : ∀ (k : Nat) (w : Word), s.values[k]? = some w → s'.values[k]? = some w
  memory : ∀ l, A.Stable n l → s'.memory.read? l = s.memory.read? l

def Splits : (p : Precision) → Snapshot p → Nat → Nat → p.Value → Prop
  | .double, s, re, im, z => s.values[re]? = some (.float z.re) ∧ s.values[im]? = some (.float z.im)
  | .high, _, _, _, _ => False

def Denotes (s : Snapshot p) : Operand → p.Value → Prop
  | .split re im, z => Splits p s re im z
  | .pointer v, z => ∃ l, s.values[v]? = some (.place l) ∧ s.memory.read? l = some z

def Holds (n : Nat) (s : Snapshot p) : Operand → p.Value → Prop
  | .split re im, z => Splits p s re im z
  | .pointer v, z => ∃ l, s.values[v]? = some (.place l) ∧ s.memory.read? l = some z ∧ A.Stable n l

structure Claimed (n : Nat) (m : Memory p) (r : Arena p.Value) : Prop where
  arena : m.arenas.get? A.owner = some r
  capacity : r.slots.length = A.final.arenaSize
  pinned : r.pinned = A.final.pinned
  cursor : r.cursor = if n = A.final.arenaSize then 0 else n

structure Reached (b : Builder p) (s : Snapshot p) : Prop where
  sound : b.Sound
  steps : A.Steps b.code.body s
  arena : ∃ r, A.Claimed b.arenaSize s.memory r
  parameter : A.Holds 0 s (Build.parameter p) A.argument
  arenaValue : ∀ v, b.arenaValue = some v → s.values[v]? = some (.arena A.owner)

def Leads (b : Builder p) (s : Snapshot p) (b' : Builder p) (Q : Snapshot p → Prop) : Prop :=
  ∃ s', A.Reached b' s' ∧ A.Grows b.arenaSize s s' ∧ Q s'

variable {A}

theorem Stable.mono {n n' : Nat} {l : Place} (h : A.Stable n l) (hn : n ≤ n') : A.Stable n' l := by
  cases l with
  | argument => trivial
  | slot o i => exact ⟨h.1, fun ho => Nat.lt_of_lt_of_le (h.2 ho) hn⟩
  | pinned o i => exact h

theorem Stable.outside {n : Nat} {l : Place} (h : A.Stable n l) : l.Outside A.library.ids := by
  cases l with
  | argument => trivial
  | slot o i => exact h.1
  | pinned o i => exact h

theorem stable_of_outside {l : Place} (h : l.Outside (A.owner :: A.library.ids)) (n : Nat) :
    A.Stable n l := by
  cases l with
  | argument => trivial
  | slot o i =>
    simp only [Place.Outside, List.mem_cons, not_or] at h
    exact ⟨h.2, fun ho => absurd ho h.1⟩
  | pinned o i =>
    simp only [Place.Outside, List.mem_cons, not_or] at h
    exact h.2

theorem Grows.refl (n : Nat) (s : Snapshot p) : A.Grows n s s :=
  ⟨fun _ _ h => h, fun _ _ => rfl⟩

theorem Grows.trans {n n' : Nat} {s s' s'' : Snapshot p} (h : A.Grows n s s') (hn : n ≤ n')
    (h' : A.Grows n' s' s'') : A.Grows n s s'' :=
  ⟨fun k w hw => h'.values k w (h.values k w hw),
    fun l hl => (h'.memory l (hl.mono hn)).trans (h.memory l hl)⟩

theorem Holds.denotes {n : Nat} {s : Snapshot p} {o : Operand} {z : p.Value} (h : A.Holds n s o z) :
    Denotes s o z := by
  cases o with
  | split re im => exact h
  | pointer v =>
    obtain ⟨l, hv, hr, -⟩ := h
    exact ⟨l, hv, hr⟩

theorem Holds.mono {n n' : Nat} {s s' : Snapshot p} {o : Operand} {z : p.Value} (h : A.Holds n s o z)
    (hn : n ≤ n') (hg : A.Grows n s s') : A.Holds n' s' o z := by
  cases o with
  | split re im =>
    cases p with
    | double => exact ⟨hg.values _ _ h.1, hg.values _ _ h.2⟩
    | high => exact h.elim
  | pointer v =>
    obtain ⟨l, hv, hr, hl⟩ := h
    exact ⟨l, hg.values _ _ hv, (hg.memory l hl).trans hr, hl.mono hn⟩

theorem Leads.trans {b b₁ b₂ : Builder p} {s : Snapshot p} {Q R : Snapshot p → Prop}
    (h : A.Leads b s b₁ Q) (hn : b.arenaSize ≤ b₁.arenaSize)
    (h' : ∀ s₁, A.Reached b₁ s₁ → A.Grows b.arenaSize s s₁ → Q s₁ → A.Leads b₁ s₁ b₂ R) :
    A.Leads b s b₂ R := by
  obtain ⟨s₁, hr₁, hg₁, hq⟩ := h
  obtain ⟨s₂, hr₂, hg₂, hR⟩ := h' s₁ hr₁ hg₁ hq
  exact ⟨s₂, hr₂, hg₁.trans hn hg₂, hR⟩

theorem Steps.size {is : List Instr} {s : Snapshot p} (h : A.Steps is s) :
    s.values.size = p.parameters.length + is.length := by
  induction h with
  | start => simp [A.passes.length]
  | step _ _ _ _ _ ih =>
    simp only [Array.size_push, ih, List.length_append, List.length_singleton]
    omega

theorem Steps.rests {is : List Instr} {s : Snapshot p} (h : A.Steps is s) : s.memory.AtRest A.library := by
  cases h with
  | start => exact A.rests
  | step _ _ _ rests _ => exact rests

theorem Steps.outer {is : List Instr} {s : Snapshot p} (h : A.Steps is s) :
    A.start.AgreesOff (A.owner :: A.library.ids) s.memory := by
  cases h with
  | start => exact Memory.AgreesOff.refl _ _
  | step _ _ _ _ outer => exact outer

theorem grows_push (n : Nat) (s : Snapshot p) (w : Word) :
    A.Grows n s ⟨s.values.push w, s.memory⟩ := by
  refine ⟨?_, fun _ _ => rfl⟩
  intro k u hu
  have hk : k < s.values.size := (Array.getElem?_eq_some_iff.mp hu).1
  simp only [Array.getElem?_push, Nat.ne_of_lt hk, ↓reduceIte, hu]

theorem Reached.of_same {b b' : Builder p} {s : Snapshot p} (h : A.Reached b s) (hs : b'.Sound)
    (hb : b'.code.body = b.code.body) (hn : b'.arenaSize = b.arenaSize)
    (hv : b'.arenaValue = b.arenaValue) : A.Reached b' s :=
  ⟨hs, hb ▸ h.steps, hn ▸ h.arena, h.parameter, hv ▸ h.arenaValue⟩

theorem Reached.emit {b b' : Builder p} {s : Snapshot p} {i : Instr} {v : Nat} {w : Word} (h : A.Reached b s)
    (hg : Gives (Build.emit i) b v b') (hp : A.Proper s i) (hs : A.step? s i = some (w, s.memory)) :
    A.Leads b s b' (fun s' => s'.memory = s.memory ∧ s'.values[v]? = some w) := by
  have hc := ((Build.Adds.emit i).continues h.sound hg).2
  cases hg
  have hgrow := grows_push (A := A) 0 s w
  refine ⟨⟨s.values.push w, s.memory⟩, ⟨hc.sound h.sound, h.steps.step hp hs h.steps.rests h.steps.outer,
    h.arena, h.parameter.mono (Nat.le_refl 0) hgrow, ?_⟩, grows_push _ s w, rfl, ?_⟩
  · intro v hv
    exact hgrow.values _ _ (h.arenaValue v hv)
  · rw [← h.steps.size]
    simp

theorem words_append {values : Array Word} {xs ys : List Nat} {us vs : List Word}
    (hx : Machine.words values xs = some us) (hy : Machine.words values ys = some vs) :
    Machine.words values (xs ++ ys) = some (us ++ vs) := by
  unfold Machine.words at *
  rw [List.mapM_append, hx, hy]
  rfl

theorem words_cons {values : Array Word} {k : Nat} {ks : List Nat} {w : Word} {ws : List Word}
    (hk : values[k]? = some w) (hks : Machine.words values ks = some ws) :
    Machine.words values (k :: ks) = some (w :: ws) := by
  unfold Machine.words at *
  rw [List.mapM_cons, hk, hks]
  rfl

theorem Grows.words {n : Nat} {s s' : Snapshot p} (h : A.Grows n s s') {ks : List Nat} {ws : List Word}
    (hw : Machine.words s.values ks = some ws) : Machine.words s'.values ks = some ws := by
  induction ks generalizing ws with
  | nil => exact hw
  | cons k ks ih =>
    unfold Machine.words at hw
    rw [List.mapM_cons] at hw
    obtain ⟨u, hu, hw⟩ := Option.bind_eq_some_iff.mp hw
    obtain ⟨us, hus, hw⟩ := Option.bind_eq_some_iff.mp hw
    cases hw
    exact words_cons (h.values k u hu) (ih hus)

theorem words_nil {values : Array Word} : Machine.words values [] = some [] := rfl

theorem Reached.importRoutine {b b' : Builder p} {s : Snapshot p} {r : Routine} {f : Nat} (h : A.Reached b s)
    (hr : r ∈ Routine.catalog p) (hg : Gives (Build.importRoutine r) b f b') :
    A.Reached b' s ∧ b'.arenaSize = b.arenaSize ∧ ∃ i, b'.code.imports[f]? = some i ∧ i.routine = r := by
  have hc := ((Build.Adds.importRoutine hr).continues h.sound hg).2
  have hf := Registry.find?_standard hr
  unfold Build.importRoutine at hg
  rw [gives_get_bind] at hg
  simp only [h.sound.registry, hf] at hg
  split at hg
  · rename_i k hk
    obtain ⟨rfl, rfl⟩ := gives_pure.mp hg
    refine ⟨h, rfl, ?_⟩
    obtain ⟨hlt, hsym, -⟩ := List.findIdx?_eq_some_iff_getElem.mp hk
    obtain ⟨e, he, htarget⟩ := h.sound.imports _ (List.getElem_mem hlt)
    have hsym' : b'.code.imports[f].symbol = r.symbol p := by simpa using hsym
    rw [hsym', hf] at he
    cases he
    exact ⟨_, List.getElem?_eq_getElem hlt, htarget.symm⟩
  · obtain ⟨k, b₁, hd, hg⟩ := gives_bind.mp hg
    cases hd
    obtain ⟨_, b₂, hm, hg⟩ := gives_bind.mp hg
    obtain ⟨rfl, rfl⟩ := gives_pure.mp hg
    simp only [gives_modify] at hm
    subst hm
    refine ⟨h.of_same (hc.sound h.sound) rfl rfl rfl, rfl, ⟨r.symbol p, r, b.code.signatures.length⟩, ?_, rfl⟩
    exact List.getElem?_concat_length

theorem Reached.loadArena {b b' : Builder p} {s : Snapshot p} {v : Nat} (h : A.Reached b s)
    (hg : Gives Build.arena b v b') :
    b'.arenaSize = b.arenaSize ∧
      A.Leads b s b' (fun s' => s'.memory = s.memory ∧ s'.values[v]? = some (.arena A.owner)) := by
  have hc := (Build.Adds.arena.continues h.sound hg).2
  unfold Build.arena at hg
  rw [gives_get_bind] at hg
  split at hg
  · rename_i k hk
    obtain ⟨rfl, rfl⟩ := gives_pure.mp hg
    exact ⟨rfl, s, h, Grows.refl _ s, rfl, h.arenaValue v hk⟩
  · obtain ⟨k, b₁, he, hg⟩ := gives_bind.mp hg
    obtain ⟨_, b₂, hm, hg⟩ := gives_bind.mp hg
    obtain ⟨rfl, rfl⟩ := gives_pure.mp hg
    simp only [gives_modify] at hm
    obtain ⟨s', hr, hgrow, hmem, hval⟩ := h.emit he trivial (w := .arena A.owner) rfl
    have hsize : b₁.arenaSize = b.arenaSize := by cases he; rfl
    subst hm
    refine ⟨hsize, s', ⟨hc.sound h.sound, hr.steps, hr.arena, hr.parameter, ?_⟩, hgrow,
      hmem, hval⟩
    intro u hu
    cases hu
    exact hval

theorem Claimed.store {n : Nat} {m : Memory p} {r : Arena p.Value} (h : A.Claimed n m r)
    (hn : n < A.final.arenaSize) (z : p.Value) :
    ∃ m' r', m.store? A.owner z = some (.slot A.owner n, m') ∧ A.Claimed (n + 1) m' r' ∧
      m.AgreesOff [A.owner] m' ∧ m'.read? (.slot A.owner n) = some z ∧
      ∀ l, A.Stable n l → m'.read? l = m.read? l := by
  have hcur : r.cursor = n := by
    rw [h.cursor, if_neg (Nat.ne_of_lt hn)]
  have hlt : r.cursor < r.slots.length := by
    rw [hcur, h.capacity]
    exact hn
  obtain ⟨m', hst, hag, hget⟩ := Memory.store?_eq h.arena hlt z
  rw [hcur] at hst hget
  refine ⟨m', _, hst, ⟨hget, by simp [h.capacity], h.pinned, ?_⟩, hag, ?_, ?_⟩
  · simp [h.capacity]
  · simp only [Memory.read?, hget, Option.bind_some]
    exact List.getElem?_set_self (hcur ▸ hlt)
  · -- slots that were claimed before lie below the cursor, where nothing was written
    intro l hl
    cases l with
    | argument => simp [Memory.read?, hag.argument]
    | slot o i =>
      by_cases ho : o = A.owner
      · have hi := hl.2 ho
        subst ho
        simp only [Memory.read?, hget, h.arena, Option.bind_some]
        exact List.getElem?_set_ne (Nat.ne_of_gt hi)
      · simp only [Memory.read?, hag.arenas o (by simpa using ho)]
    | pinned o i =>
      by_cases ho : o = A.owner
      · subst ho
        simp [Memory.read?, hget, h.arena]
      · simp only [Memory.read?, hag.arenas o (by simpa using ho)]

theorem callRoutine?_eq {m : Memory p} {r : Routine} {ws : List Word} {zs : List p.Value} {z : p.Value}
    (hz : Machine.operands p m ws = some zs) (hr : r.result? p zs = some z) (owner : Nat) :
    Machine.callRoutine? m r (ws ++ [.arena owner]) = m.store? owner z := by
  simp [Machine.callRoutine?, hz, hr]

theorem Reached.callRoutine {b b' : Builder p} {s : Snapshot p} {r : Routine} {args : List Nat} {v : Nat}
    {zs : List p.Value} {z : p.Value} {ws : List Word} (h : A.Reached b s) (hr : r ∈ Routine.catalog p)
    (hg : Gives (Build.callRoutine r args) b v b') (he : b'.Extends A.final)
    (hw : Machine.words s.values args = some ws) (hz : Machine.operands p s.memory ws = some zs)
    (hres : r.result? p zs = some z) :
    A.Leads b s b' (fun s' => A.Holds b'.arenaSize s' (.pointer v) z) := by
  have hc := ((Build.Adds.callRoutine hr args).continues h.sound hg).2
  unfold Build.callRoutine at hg
  obtain ⟨f, b₁, hf, hg⟩ := gives_bind.mp hg
  obtain ⟨a, b₂, ha, hg⟩ := gives_bind.mp hg
  obtain ⟨v', b₃, hi, hg⟩ := gives_bind.mp hg
  obtain ⟨_, b₄, hm, hg⟩ := gives_bind.mp hg
  obtain ⟨rfl, rfl⟩ := gives_pure.mp hg
  simp only [gives_modify] at hm
  obtain ⟨h₁, hn₁, i, hfi, hir⟩ := h.importRoutine hr hf
  obtain ⟨hn₂, s₂, h₂, hgrow₂, hmem₂, hval₂⟩ := h₁.loadArena ha
  have hc₂ := (Build.Adds.arena.continues h₁.sound ha).2
  have hc₃ := ((Build.Adds.emit _).continues h₂.sound hi).2
  cases hi
  subst hm
  have himport : A.final.code.imports[f]? = some i := by
    obtain ⟨rest, hrest⟩ := (hc₂.imports.trans hc₃.imports).trans he.imports
    rw [← hrest, List.getElem?_append_left (List.getElem?_eq_some_iff.mp hfi).1, hfi]
  have hsize : b₂.arenaSize = b.arenaSize := hn₂.trans hn₁
  have hroom : b₂.arenaSize < A.final.arenaSize := he.arenaSize
  obtain ⟨q, hq⟩ := h₂.arena
  obtain ⟨m, q', hst, hq', hag, hread, hstable⟩ := hq.store hroom z
  have hwords : Machine.words s₂.values (args ++ [a]) = some (ws ++ [.arena A.owner]) :=
    words_append (hgrow₂.words hw) (words_cons hval₂ words_nil)
  have hstep : A.step? s₂ (.call f (args ++ [a])) = some (.place (.slot A.owner b₂.arenaSize), m) := by
    simp only [Activation.step?, Machine.step?, himport, hwords, hir, Option.bind_eq_bind, Option.bind_some,
      callRoutine?_eq (hmem₂ ▸ hz) hres, hst]
    rfl
  have hgrow : A.Grows b₂.arenaSize s₂ ⟨s₂.values.push (.place (.slot A.owner b₂.arenaSize)), m⟩ :=
    ⟨(grows_push (A := A) 0 s₂ _).values, hstable⟩
  have hfree : ∀ id ∈ [A.owner], id ∉ A.library.ids := by simpa using A.fresh
  have hproper : A.Proper s₂ (.call f (args ++ [a])) := trivial
  have hsteps := h₂.steps.step hproper hstep (h₂.steps.rests.of_agrees hag hfree)
    (h₂.steps.outer.trans (hag.mono (by simp)))
  refine ⟨_, ⟨hc.sound h.sound, hsteps, ⟨q', hq'⟩, h₂.parameter.mono (Nat.le_refl 0) ⟨hgrow.values, ?_⟩, ?_⟩, ?_,
    .slot A.owner b₂.arenaSize, ?_, hread, A.fresh, fun _ => Nat.lt_succ_self _⟩
  · intro l hl
    exact hgrow.memory l (hl.mono (Nat.zero_le _))
  · intro u hu
    exact hgrow.values _ _ (h₂.arenaValue u hu)
  · rw [hn₁] at hgrow₂
    exact hgrow₂.trans (Nat.le_of_eq hsize.symm) hgrow
  · rw [← h₂.steps.size]
    simp

theorem Claimed.of_agrees {n : Nat} {m m' : Memory p} {r : Arena p.Value} (h : A.Claimed n m r)
    (ha : m.AgreesOff A.library.ids m') : A.Claimed n m' r :=
  ⟨(ha.arenas A.owner A.fresh).trans h.arena, h.capacity, h.pinned, h.cursor⟩

theorem Reached.callEntry {b b' : Builder p} {s : Snapshot p} {id : Nat} {args : List Nat} {v : Nat}
    {ws : List Word} {x : p.Value} (h : A.Reached b s) (hg : Gives (Build.callEntry id args) b v b')
    (he : b'.Extends A.final) (hw : Machine.words s.values args = some ws)
    (hx : Machine.Passes p A.library.ids s.memory ws x) :
    b'.arenaSize = b.arenaSize ∧
      A.Leads b s b' (fun s' => Denotes s' (.pointer v) (A.meaning id x)) := by
  have hc := ((Build.Adds.callEntry id args).continues h.sound hg).2
  have hid : id ∈ A.library.ids := by
    apply A.known
    apply he.callees
    exact (hc.called id).mpr (.inr (by simp))
  unfold Build.callEntry at hg
  obtain ⟨k, b₁, hd, hg⟩ := gives_bind.mp hg
  obtain ⟨t, b₂, ht, hg⟩ := gives_bind.mp hg
  obtain ⟨v', b₃, hi, hg⟩ := gives_bind.mp hg
  obtain ⟨_, b₄, hm, hg⟩ := gives_bind.mp hg
  obtain ⟨rfl, rfl⟩ := gives_pure.mp hg
  simp only [gives_modify] at hm
  have hc₁ := ((Build.Adds.declareSignature _).continues h.sound hd).2
  have h₁ : A.Reached b₁ s := by
    cases hd
    exact h.of_same (hc₁.sound h.sound) rfl rfl rfl
  have hn₁ : b₁.arenaSize = b.arenaSize := by cases hd; rfl
  obtain ⟨s₂, h₂, hgrow₂, hmem₂, hval₂⟩ := h₁.emit ht trivial (w := .entry id) rfl
  have hn₂ : b₂.arenaSize = b₁.arenaSize := by cases ht; rfl
  obtain ⟨l, m, hcall, hread, hrest, hag⟩ := A.serves id hid s₂.memory ws x h₂.steps.rests (hmem₂ ▸ hx)
  have hwords := hgrow₂.words hw
  have hstep : A.step? s₂ (.callEntry k t args) = some (.place l, m) := by
    simp only [Activation.step?, Machine.step?, hval₂, hwords, Option.bind_eq_bind, Option.bind_some, hcall]
    rfl
  -- the callee writes to arenas of the library only, and what is stable lies outside of them
  have hgrow : A.Grows b₂.arenaSize s₂ ⟨s₂.values.push (.place l), m⟩ :=
    ⟨(grows_push (A := A) 0 s₂ _).values, fun l hl => hag.read? hl.outside⟩
  have hproper : A.Proper s₂ (.callEntry k t args) := ⟨id, ws, x, hval₂, hid, hwords, hmem₂ ▸ hx⟩
  cases hi
  subst hm
  obtain ⟨q, hq⟩ := h₂.arena
  have hsteps := h₂.steps.step hproper hstep hrest (h₂.steps.outer.trans (hag.mono (by simp)))
  refine ⟨hn₂.trans hn₁, _, ⟨hc.sound h.sound, hsteps, ⟨q, hq.of_agrees hag⟩,
    h₂.parameter.mono (Nat.le_refl 0) ⟨hgrow.values, ?_⟩, ?_⟩, ?_, l, ?_, hread⟩
  · intro l hl
    exact hag.read? hl.outside
  · intro u hu
    exact hgrow.values _ _ (h₂.arenaValue u hu)
  · rw [← hn₁]
    exact hgrow₂.trans (Nat.le_of_eq hn₂.symm) hgrow
  · rw [← h₂.steps.size]
    simp

theorem Reached.constant {b b' : Builder p} {s : Snapshot p} {z : p.Literal} {o : Operand} (h : A.Reached b s)
    (hg : Gives (Build.constant p z) b o b') (he : b'.Extends A.final) :
    A.Leads b s b' (fun s' => A.Holds b'.arenaSize s' o (p.value z)) := by
  cases p with
  | double =>
    obtain ⟨re, b₁, hre, hg⟩ := gives_bind.mp hg
    obtain ⟨im, b₂, him, hg⟩ := gives_bind.mp hg
    obtain ⟨rfl, rfl⟩ := gives_pure.mp hg
    obtain ⟨s₁, h₁, hgrow₁, -, hval₁⟩ := h.emit hre trivial (w := .float (.ofBits z.re)) rfl
    obtain ⟨s₂, h₂, hgrow₂, -, hval₂⟩ := h₁.emit him trivial (w := .float (.ofBits z.im)) rfl
    have hn : b.arenaSize ≤ b₁.arenaSize := by cases hre; exact Nat.le_refl _
    exact ⟨s₂, h₂, hgrow₁.trans hn hgrow₂, hgrow₂.values _ _ hval₁, hval₂⟩
  | high =>
    have hc := ((Build.Adds.constant z).continues h.sound hg).2
    unfold Build.constant at hg
    rw [gives_get_bind] at hg
    obtain ⟨_, b₁, hset, hg⟩ := gives_bind.mp hg
    obtain ⟨v, b₂, hv, hg⟩ := gives_bind.mp hg
    obtain ⟨rfl, rfl⟩ := gives_pure.mp hg
    simp only [gives_set] at hset
    have h₁ : A.Reached b₁ s := by
      subst hset
      exact h.of_same ⟨h.sound.registry, h.sound.imports, h.sound.stack⟩ rfl rfl rfl
    have hn : b₁.arenaSize = b.arenaSize := by rw [hset]
    obtain ⟨s₂, h₂, hgrow₂, -, hval₂⟩ :=
      h₁.emit hv trivial (w := .place (.pinned A.owner b.pinned.length)) rfl
    obtain ⟨q, hq⟩ := h₂.arena
    have hpin : A.final.pinned[b.pinned.length]? = some z := by
      have hb : b'.pinned = b.pinned ++ [z] := by
        cases hv
        rw [hset]
      obtain ⟨rest, hrest⟩ := he.pinned
      rw [← hrest, hb, List.append_assoc, List.getElem?_append_right (Nat.le_refl _)]
      simp
    refine ⟨s₂, h₂, hn ▸ hgrow₂, _, hval₂, ?_, A.fresh⟩
    simp only [Memory.read?, hq.arena, hq.pinned, Option.bind_some]
    exact hpin

section Double

variable {A : Activation .double}

theorem Reached.unwrap {b b' : Builder .double} {s : Snapshot .double} {o : Operand} {k : Nat × Nat}
    {z : FloatComplex} (h : A.Reached b s) (hg : Gives (Build.unwrap o) b k b') (ho : Denotes s o z) :
    b'.arenaSize = b.arenaSize ∧
      A.Leads b s b' (fun s' => s'.memory = s.memory ∧ Splits .double s' k.1 k.2 z) := by
  cases o with
  | split re im =>
    obtain ⟨rfl, rfl⟩ := gives_pure.mp hg
    exact ⟨rfl, s, h, Grows.refl _ s, rfl, ho⟩
  | pointer v =>
    obtain ⟨l, hv, hr⟩ := ho
    obtain ⟨re, b₁, hre, hg⟩ := gives_bind.mp hg
    obtain ⟨im, b₂, him, hg⟩ := gives_bind.mp hg
    obtain ⟨rfl, rfl⟩ := gives_pure.mp hg
    have hload (part : Part) (s' : Snapshot .double) (hv' : s'.values[v]? = some (.place l))
        (hm : s'.memory = s.memory) (x : Float) (hx : Machine.part? .double part z = some x) :
        A.step? s' (.load part v) = some (.float x, s'.memory) := by
      simp [Activation.step?, Machine.step?, Machine.load?, hv', hm, hr, hx]
    obtain ⟨s₁, h₁, hgrow₁, hmem₁, hval₁⟩ := h.emit hre trivial (hload .re s hv rfl z.re rfl)
    obtain ⟨s₂, h₂, hgrow₂, hmem₂, hval₂⟩ :=
      h₁.emit him trivial (hload .im s₁ (hgrow₁.values _ _ hv) hmem₁ z.im rfl)
    have hn₁ : b₁.arenaSize = b.arenaSize := by cases hre; rfl
    have hn₂ : b'.arenaSize = b₁.arenaSize := by cases him; rfl
    exact ⟨hn₂.trans hn₁, s₂, h₂, hgrow₁.trans (Nat.le_of_eq hn₁.symm) hgrow₂, hmem₂.trans hmem₁,
      hgrow₂.values _ _ hval₁, hval₂⟩

theorem Reached.arith {b b' : Builder .double} {s : Snapshot .double} {op : FloatOp} {i j v : Nat} {x y : Float}
    (h : A.Reached b s) (hg : Gives (Build.arith op i j) b v b') (hi : s.values[i]? = some (.float x))
    (hj : s.values[j]? = some (.float y)) :
    b'.arenaSize = b.arenaSize ∧
      A.Leads b s b' (fun s' => s'.values[v]? = some (.float (op.apply x y))) := by
  have hstep : A.step? s (.arith op i j) = some (.float (op.apply x y), s.memory) := by
    simp [Activation.step?, Machine.step?, hi, hj]
  obtain ⟨s₁, h₁, hgrow₁, -, hval₁⟩ := h.emit hg trivial hstep
  exact ⟨by cases hg; rfl, s₁, h₁, hgrow₁, hval₁⟩

theorem Splits.mono {n : Nat} {s s' : Snapshot .double} {i j : Nat} {z : FloatComplex}
    (h : Splits .double s i j z) (hg : A.Grows n s s') : Splits .double s' i j z :=
  ⟨hg.values _ _ h.1, hg.values _ _ h.2⟩

theorem Splits.words {s : Snapshot .double} {i j : Nat} {z : FloatComplex} {ks : List Nat} {ws : List Word}
    (h : Splits .double s i j z) (hw : Machine.words s.values ks = some ws) :
    Machine.words s.values (i :: j :: ks) = some (.float z.re :: .float z.im :: ws) :=
  words_cons h.1 (words_cons h.2 hw)

theorem Reached.unwrapBoth {b b₁ b₂ : Builder .double} {s : Snapshot .double} {o₁ o₂ : Operand}
    {k₁ k₂ : Nat × Nat} {z w : FloatComplex} (h : A.Reached b s) (hg₁ : Gives (Build.unwrap o₁) b k₁ b₁)
    (hg₂ : Gives (Build.unwrap o₂) b₁ k₂ b₂) (hz : A.Holds b.arenaSize s o₁ z)
    (hw : A.Holds b.arenaSize s o₂ w) :
    b₂.arenaSize = b.arenaSize ∧
      A.Leads b s b₂ (fun s' => Splits .double s' k₁.1 k₁.2 z ∧ Splits .double s' k₂.1 k₂.2 w) := by
  obtain ⟨hn₁, s₁, h₁, hgrow₁, -, hz₁⟩ := h.unwrap hg₁ hz.denotes
  have hw₁ := hw.mono (Nat.le_of_eq hn₁.symm) hgrow₁
  obtain ⟨hn₂, s₂, h₂, hgrow₂, -, hw₂⟩ := h₁.unwrap hg₂ hw₁.denotes
  exact ⟨hn₂.trans hn₁, s₂, h₂, hgrow₁.trans (Nat.le_of_eq hn₁.symm) hgrow₂, hz₁.mono hgrow₂, hw₂⟩

theorem Reached.partwise {b b' : Builder .double} {s : Snapshot .double} {op : FloatOp} {i j k l : Nat}
    {o : Operand} {z w : FloatComplex} (h : A.Reached b s) (hz : Splits .double s i j z)
    (hw : Splits .double s k l w)
    (hg : Gives (do return .split (← Build.arith op i k) (← Build.arith op j l)) b o b') (n : Nat) :
    A.Leads b s b' (fun s' => A.Holds n s' o ⟨op.apply z.re w.re, op.apply z.im w.im⟩) := by
  obtain ⟨re, b₁, hre, hg⟩ := gives_bind.mp hg
  obtain ⟨im, b₂, him, hg⟩ := gives_bind.mp hg
  obtain ⟨rfl, rfl⟩ := gives_pure.mp hg
  obtain ⟨hn₁, s₁, h₁, hgrow₁, hval₁⟩ := h.arith hre hz.1 hw.1
  obtain ⟨-, s₂, h₂, hgrow₂, hval₂⟩ := h₁.arith him (hz.mono hgrow₁).2 (hw.mono hgrow₁).2
  exact ⟨s₂, h₂, hgrow₁.trans (Nat.le_of_eq hn₁.symm) hgrow₂, hgrow₂.values _ _ hval₁, hval₂⟩

theorem Reached.product {b b' : Builder .double} {s : Snapshot .double} {i j k l : Nat} {o : Operand}
    {z w : FloatComplex} (h : A.Reached b s) (hz : Splits .double s i j z) (hw : Splits .double s k l w)
    (hg : Gives (do
      let ac ← Build.arith .mul i k
      let bd ← Build.arith .mul j l
      let ad ← Build.arith .mul i l
      let bc ← Build.arith .mul j k
      return .split (← Build.arith .sub ac bd) (← Build.arith .add ad bc)) b o b') (n : Nat) :
    A.Leads b s b' (fun s' => A.Holds n s' o (z * w)) := by
  obtain ⟨ac, b₁, hac, hg⟩ := gives_bind.mp hg
  obtain ⟨bd, b₂, hbd, hg⟩ := gives_bind.mp hg
  obtain ⟨ad, b₃, had, hg⟩ := gives_bind.mp hg
  obtain ⟨bc, b₄, hbc, hg⟩ := gives_bind.mp hg
  obtain ⟨hn₁, hl₁⟩ := h.arith hac hz.1 hw.1
  refine hl₁.trans (Nat.le_of_eq hn₁.symm) (fun s₁ h₁ hgrow₁ hv₁ => ?_)
  have hz₁ := hz.mono hgrow₁
  have hw₁ := hw.mono hgrow₁
  obtain ⟨hn₂, hl₂⟩ := h₁.arith hbd hz₁.2 hw₁.2
  refine hl₂.trans (Nat.le_of_eq hn₂.symm) (fun s₂ h₂ hgrow₂ hv₂ => ?_)
  have hz₂ := hz₁.mono hgrow₂
  have hw₂ := hw₁.mono hgrow₂
  obtain ⟨hn₃, hl₃⟩ := h₂.arith had hz₂.1 hw₂.2
  refine hl₃.trans (Nat.le_of_eq hn₃.symm) (fun s₃ h₃ hgrow₃ hv₃ => ?_)
  have hz₃ := hz₂.mono hgrow₃
  have hw₃ := hw₂.mono hgrow₃
  obtain ⟨hn₄, hl₄⟩ := h₃.arith hbc hz₃.2 hw₃.1
  refine hl₄.trans (Nat.le_of_eq hn₄.symm) (fun s₄ h₄ hgrow₄ hv₄ => ?_)
  obtain ⟨re, b₅, hre, hg⟩ := gives_bind.mp hg
  obtain ⟨im, b₆, him, hg⟩ := gives_bind.mp hg
  obtain ⟨rfl, rfl⟩ := gives_pure.mp hg
  have hac₄ := hgrow₄.values _ _ (hgrow₃.values _ _ (hgrow₂.values _ _ hv₁))
  have hbd₄ := hgrow₄.values _ _ (hgrow₃.values _ _ hv₂)
  obtain ⟨hn₅, s₅, h₅, hgrow₅, hv₅⟩ := h₄.arith hre hac₄ hbd₄
  have had₅ := hgrow₅.values _ _ (hgrow₄.values _ _ hv₃)
  obtain ⟨-, s₆, h₆, hgrow₆, hv₆⟩ := h₅.arith him had₅ (hgrow₅.values _ _ hv₄)
  exact ⟨s₆, h₆, hgrow₅.trans (Nat.le_of_eq hn₅.symm) hgrow₆, hgrow₆.values _ _ hv₅, hv₆⟩

end Double

section High

variable {A : Activation .high}

theorem Denotes.address {b b' : Builder .high} {s : Snapshot .high} {o : Operand} {v : Nat} {z : BigComplex}
    (ho : Denotes s o z) (hg : Gives (Build.address o) b v b') : b' = b ∧ o = .pointer v := by
  cases o with
  | split re im => exact ho.elim
  | pointer u =>
    obtain ⟨rfl, rfl⟩ := gives_pure.mp hg
    exact ⟨rfl, rfl⟩

theorem operands_cons {m : Memory .high} {l : Place} {z : BigComplex} {ws : List Word} {zs : List BigComplex}
    (hl : m.read? l = some z) (hws : Machine.operands .high m ws = some zs) :
    Machine.operands .high m (.place l :: ws) = some (z :: zs) := by
  simp only [Machine.operands] at *
  rw [List.mapM_cons]
  simp only [hl, hws]
  rfl

end High

theorem Reached.binary {b b' : Builder p} {s : Snapshot p} {op : BinaryOp} {o₁ o₂ o : Operand} {z w : p.Value}
    (h : A.Reached b s) (hg : Gives (Build.binary p op o₁ o₂) b o b') (he : b'.Extends A.final)
    (hz : A.Holds b.arenaSize s o₁ z) (hw : A.Holds b.arenaSize s o₂ w) :
    A.Leads b s b' (fun s' => A.Holds b'.arenaSize s' o (p.binary op z w)) := by
  have hr := Routine.binary_mem_catalog p op
  cases p with
  | double =>
    obtain ⟨k₁, b₁, hg₁, hg⟩ := gives_bind.mp hg
    obtain ⟨k₂, b₂, hg₂, hg⟩ := gives_bind.mp hg
    obtain ⟨hn, hl⟩ := h.unwrapBoth hg₁ hg₂ hz hw
    refine hl.trans (Nat.le_of_eq hn.symm) (fun s₂ h₂ _ hzw => ?_)
    obtain ⟨hz₂, hw₂⟩ := hzw
    have hwords := hz₂.words (hw₂.words words_nil)
    cases op with
    | add | sub => exact h₂.partwise hz₂ hw₂ hg _
    | mul => exact h₂.product hz₂ hw₂ hg _
    | div | pow =>
      obtain ⟨v, b₃, hv, hg⟩ := gives_bind.mp hg
      obtain ⟨rfl, rfl⟩ := gives_pure.mp hg
      exact h₂.callRoutine hr hv he hwords rfl rfl
  | high =>
    obtain ⟨u, b₁, hu, hg⟩ := gives_bind.mp hg
    obtain ⟨v, b₂, hv, hg⟩ := gives_bind.mp hg
    obtain ⟨r, b₃, hres, hg⟩ := gives_bind.mp hg
    obtain ⟨rfl, rfl⟩ := gives_pure.mp hg
    obtain ⟨rfl, rfl⟩ := hz.denotes.address hu
    obtain ⟨rfl, rfl⟩ := hw.denotes.address hv
    obtain ⟨l₁, hv₁, hr₁, -⟩ := hz
    obtain ⟨l₂, hv₂, hr₂, -⟩ := hw
    have hwords := words_cons hv₁ (words_cons hv₂ words_nil)
    exact h.callRoutine hr hres he hwords (operands_cons hr₁ (operands_cons hr₂ rfl)) rfl

theorem Reached.unary {b b' : Builder p} {s : Snapshot p} {op : UnaryOp} {o₁ o : Operand} {z : p.Value}
    (h : A.Reached b s) (hg : Gives (Build.unary p op o₁) b o b') (he : b'.Extends A.final)
    (hz : A.Holds b.arenaSize s o₁ z) :
    A.Leads b s b' (fun s' => A.Holds b'.arenaSize s' o (p.unary op z)) := by
  have hr := Routine.unary_mem_catalog p op
  cases p with
  | double =>
    obtain ⟨k, b₁, hk, hg⟩ := gives_bind.mp hg
    obtain ⟨v, b₂, hv, hg⟩ := gives_bind.mp hg
    obtain ⟨rfl, rfl⟩ := gives_pure.mp hg
    obtain ⟨hn, hl⟩ := h.unwrap hk hz.denotes
    refine hl.trans (Nat.le_of_eq hn.symm) (fun s₁ h₁ _ hz₁ => ?_)
    exact h₁.callRoutine hr hv he (hz₁.2.words words_nil) rfl rfl
  | high =>
    obtain ⟨u, b₁, hu, hg⟩ := gives_bind.mp hg
    obtain ⟨v, b₂, hv, hg⟩ := gives_bind.mp hg
    obtain ⟨rfl, rfl⟩ := gives_pure.mp hg
    obtain ⟨rfl, rfl⟩ := hz.denotes.address hu
    obtain ⟨l, hval, hread, -⟩ := hz
    exact h.callRoutine hr hv he (words_cons hval words_nil) (operands_cons hread rfl) rfl

theorem Reached.enter {b b' : Builder p} {s : Snapshot p} {id : Nat} {o₁ o : Operand} {z : p.Value}
    (h : A.Reached b s) (hg : Gives (Build.enter p id o₁) b o b') (he : b'.Extends A.final)
    (hz : A.Holds b.arenaSize s o₁ z) :
    A.Leads b s b' (fun s' => A.Holds b'.arenaSize s' o (A.meaning id z)) := by
  cases p with
  | double =>
    obtain ⟨k, b₁, hk, hg⟩ := gives_bind.mp hg
    obtain ⟨v, b₂, hv, hg⟩ := gives_bind.mp hg
    obtain ⟨k', b₃, hk', hg⟩ := gives_bind.mp hg
    obtain ⟨rfl, rfl⟩ := gives_pure.mp hg
    obtain ⟨hn₁, hl₁⟩ := h.unwrap hk hz.denotes
    refine hl₁.trans (Nat.le_of_eq hn₁.symm) (fun s₁ h₁ _ hz₁ => ?_)
    have hsound := ((Build.Adds.callEntry id _).continues h₁.sound hv).2.sound h₁.sound
    have he₂ := ((Build.Adds.unwrap _).continues hsound hk').2.toExtends.trans he
    obtain ⟨hn₂, hl₂⟩ := h₁.callEntry hv he₂ (hz₁.2.words words_nil) rfl
    refine hl₂.trans (Nat.le_of_eq hn₂.symm) (fun s₂ h₂ _ hres => ?_)
    obtain ⟨-, s₃, h₃, hgrow₃, -, hz₃⟩ := h₂.unwrap hk' hres
    exact ⟨s₃, h₃, hgrow₃, hz₃⟩
  | high =>
    obtain ⟨u, b₁, hu, hg⟩ := gives_bind.mp hg
    obtain ⟨v, b₂, hv, hg⟩ := gives_bind.mp hg
    obtain ⟨c, b₃, hc, hg⟩ := gives_bind.mp hg
    obtain ⟨rfl, rfl⟩ := gives_pure.mp hg
    obtain ⟨rfl, rfl⟩ := hz.denotes.address hu
    obtain ⟨l, hval, hread, hstable⟩ := hz
    have hcopy : Routine.copy ∈ Routine.catalog .high := by decide
    have hsound := ((Build.Adds.callEntry id _).continues h.sound hv).2.sound h.sound
    have he₂ := ((Build.Adds.callRoutine hcopy _).continues hsound hc).2.toExtends.trans he
    obtain ⟨hn, hl⟩ := h.callEntry hv he₂ (words_cons hval words_nil) ⟨l, rfl, hread, hstable.outside⟩
    refine hl.trans (Nat.le_of_eq hn.symm) (fun s₁ h₁ _ hres => ?_)
    -- the result lies in the callee's arena, which its next call overwrites; what is held is the copy
    obtain ⟨l', hval', hread'⟩ := hres
    exact h₁.callRoutine hcopy hc he (words_cons hval' words_nil) (operands_cons hread' rfl) rfl

theorem Reached.result {b b' : Builder p} {s : Snapshot p} {o : Operand} {v : Nat} {z : p.Value}
    (h : A.Reached b s) (hg : Gives (Build.result p o) b v b') (he : b'.Extends A.final)
    (hz : A.Holds b.arenaSize s o z) : A.Leads b s b' (fun s' => Denotes s' (.pointer v) z) := by
  cases p with
  | double =>
    cases o with
    | split re im =>
      obtain ⟨s₁, h₁, hgrow₁, hz₁⟩ :=
        h.callRoutine (by decide) hg he (Splits.words hz words_nil) rfl rfl
      exact ⟨s₁, h₁, hgrow₁, hz₁.denotes⟩
    | pointer u =>
      obtain ⟨rfl, rfl⟩ := gives_pure.mp hg
      exact ⟨s, h, Grows.refl _ s, hz.denotes⟩
  | high =>
    obtain ⟨rfl, rfl⟩ := hz.denotes.address hg
    exact ⟨s, h, Grows.refl _ s, hz.denotes⟩

section Tokens

variable {scope : Scope} {settings : Settings} {parameter : String}

variable (A scope parameter) in
def Carries (n : Nat) (s : Snapshot p) (o : Operand) (t : Tree) : Prop :=
  ∃ z, t.value? scope parameter (fun id z => some (A.meaning id z)) A.argument = some z ∧ A.Holds n s o z

theorem carries_mono {n n' : Nat} {s s' : Snapshot p} {os : List Operand} {ts : List Tree}
    (h : List.Forall₂ (A.Carries scope parameter n s) os ts) (hn : n ≤ n') (hg : A.Grows n s s') :
    List.Forall₂ (A.Carries scope parameter n' s') os ts := by
  refine h.imp ?_
  rintro o t ⟨z, ht, hz⟩
  exact ⟨z, ht, hz.mono hn hg⟩

theorem Reached.add {b b' : Builder p} {s : Snapshot p} {left : List Operand} {rest : List Tree}
    {called : List Nat} {x : Build p Operand} {t : Tree} {z : p.Value} (h : A.Reached b s)
    (hleft : left ⊆ b.stack) (hx : Build.Adds called x (Operand.Fits p))
    (hg : Gives (x >>= Build.push) { b with stack := left } ⟨⟩ b') (he : b'.Extends A.final)
    (hst : List.Forall₂ (A.Carries scope parameter b.arenaSize s) left rest)
    (ht : t.value? scope parameter (fun id z => some (A.meaning id z)) A.argument = some z)
    (hl : ∀ o b₁, A.Reached { b with stack := left } s → Gives x { b with stack := left } o b₁ →
      b₁.Extends A.final →
        A.Leads { b with stack := left } s b₁ (fun s' => A.Holds b₁.arenaSize s' o z)) :
    A.Leads b s b' (fun s' =>
      List.Forall₂ (A.Carries scope parameter b'.arenaSize s') b'.stack (t :: rest)) := by
  have hsound : ({ b with stack := left } : Builder p).Sound :=
    ⟨h.sound.registry, h.sound.imports, fun o ho => h.sound.stack o (hleft ho)⟩
  have h₀ : A.Reached { b with stack := left } s := h.of_same hsound rfl rfl rfl
  obtain ⟨o, b₁, hgx, hg⟩ := gives_bind.mp hg
  obtain ⟨hfit, hc⟩ := hx.continues hsound hgx
  obtain ⟨-, rfl⟩ := hg.unique (Build.gives_push o b₁)
  have he₁ : b₁.Extends A.final := ⟨he.imports, he.pinned, he.arenaSize, he.callees⟩
  obtain ⟨s₁, h₁, hgrow₁, hz₁⟩ := hl o b₁ h₀ hgx he₁
  have hs₁ := h₁.sound
  refine ⟨s₁, h₁.of_same ⟨hs₁.registry, hs₁.imports, ?_⟩ rfl rfl rfl, hgrow₁, ?_⟩
  · intro o' ho'
    rcases List.mem_cons.mp ho' with rfl | ho'
    · exact hfit
    · exact hs₁.stack o' ho'
  · have hstack : b₁.stack = left := hc.stack
    simp only [hstack]
    exact .cons ⟨z, ht, hz₁⟩ (carries_mono hst hc.arenaSize hgrow₁)

theorem Reached.token {b b' : Builder p} {s : Snapshot p} {trees trees' : List Tree} {token : Token}
    (h : A.Reached b s) (hst : List.Forall₂ (A.Carries scope parameter b.arenaSize s) b.stack trees)
    (hg : Gives (Build.token scope settings parameter token) b ⟨⟩ b') (he : b'.Extends A.final)
    (hp : Tree.push scope p settings.extended parameter trees token = .ok trees') :
    A.Leads b s b' (fun s' =>
      List.Forall₂ (A.Carries scope parameter b'.arenaSize s') b'.stack trees') := by
  cases Tree.accepts_of_push hp with
  | @number _ text z hz =>
    have hg := (gives_lift.mpr ⟨hz, rfl⟩).of_bind hg
    apply h.add (List.Subset.refl _) (Build.Adds.constant z) hg he hst (z := p.value z)
    · simp [Tree.value?, hz, Except.toOption]
    · intro o b₁ h₁ hg₁ he₁
      exact h₁.constant hg₁ he₁
  | parameter =>
    simp only [Build.token, ↓reduceIte, Build.pushParameter] at hg
    rw [← pure_bind (Build.parameter p) Build.push] at hg
    apply h.add (List.Subset.refl _) (Build.Adds.pure (Build.fits_parameter p)) hg he hst (z := A.argument)
    · simp [Tree.value?]
    · intro o b₁ h₁ hg₁ _
      obtain ⟨rfl, rfl⟩ := gives_pure.mp hg₁
      exact ⟨s, h₁, Grows.refl _ s, h₁.parameter.mono (Nat.zero_le _) (Grows.refl 0 s)⟩
  | @constant _ name z hn hz =>
    simp only [Build.token, hn, ↓reduceIte] at hg
    have hg := (gives_lift.mpr ⟨hz, rfl⟩).of_bind hg
    apply h.add (List.Subset.refl _) (Build.Adds.constant z) hg he hst (z := p.value z)
    · simp [Tree.value?, hn, hz, Except.toOption]
    · intro o b₁ h₁ hg₁ he₁
      exact h₁.constant hg₁ he₁
  | @unary rest t op symbol hop =>
    obtain ⟨o₁, left, ⟨z, ht, hz⟩, hrest, hs⟩ := List.forall₂_cons_right_iff.mp hst
    have hfit := h.sound.stack o₁ (by simp [hs])
    simp only [Build.token, hop, Build.applyOperator] at hg
    have hg := (Build.gives_pop hs _).of_bind hg
    apply h.add (by simp [hs]) (Build.Adds.unary op hfit) hg he hrest (z := p.unary op z)
    · simp [Tree.value?, ht]
    · intro o b₁ h₁ hg₁ he₁
      exact h₁.unary hg₁ he₁ hz
  | @binary rest l r op symbol hop =>
    obtain ⟨o₂, left, ⟨w, hr, hw⟩, hst₁, hs⟩ := List.forall₂_cons_right_iff.mp hst
    obtain ⟨o₁, left, ⟨z, hl, hz⟩, hrest, rfl⟩ := List.forall₂_cons_right_iff.mp hst₁
    have hfit₁ := h.sound.stack o₁ (by simp [hs])
    have hfit₂ := h.sound.stack o₂ (by simp [hs])
    simp only [Build.token, hop, Build.applyOperator] at hg
    have hg := (Build.gives_pop rfl _).of_bind ((Build.gives_pop hs _).of_bind hg)
    apply h.add (by simp [hs]) (Build.Adds.binary op hfit₁ hfit₂) hg he hrest (z := p.binary op z w)
    · simp [Tree.value?, hl, hr]
    · intro o b₁ h₁ hg₁ he₁
      exact h₁.binary hg₁ he₁ hz hw
  | @call rest t name id hid =>
    obtain ⟨o₁, left, ⟨z, ht, hz⟩, hrest, hs⟩ := List.forall₂_cons_right_iff.mp hst
    have hfit := h.sound.stack o₁ (by simp [hs])
    have hg := (Build.gives_pop hs _).of_bind ((gives_lift.mpr ⟨hid, rfl⟩).of_bind hg)
    apply h.add (by simp [hs]) (Build.Adds.enter id hfit) hg he hrest (z := A.meaning id z)
    · simp [Tree.value?, hid, ht, Except.toOption]
    · intro o b₁ h₁ hg₁ he₁
      exact h₁.enter hg₁ he₁ hz

theorem Reached.tokens {b b' : Builder p} {s : Snapshot p} {trees trees' : List Tree} {tokens : List Token}
    (h : A.Reached b s) (hf : Build.Follows scope trees b)
    (hst : List.Forall₂ (A.Carries scope parameter b.arenaSize s) b.stack trees)
    (hg : Gives (tokens.forM (Build.token scope settings parameter)) b ⟨⟩ b') (he : b'.Extends A.final)
    (hp : Tree.pushAll scope p settings.extended parameter trees tokens = .ok trees') :
    A.Leads b s b' (fun s' =>
      List.Forall₂ (A.Carries scope parameter b'.arenaSize s') b'.stack trees') := by
  induction tokens generalizing b s trees with
  | nil =>
    obtain ⟨-, rfl⟩ := gives_pure.mp hg
    simp only [Tree.pushAll, List.foldlM_nil, pure, Except.pure, Except.ok.injEq] at hp
    subst hp
    exact ⟨s, h, Grows.refl _ s, hst⟩
  | cons token tokens ih =>
    rw [Tree.pushAll_cons] at hp
    rcases hq : Tree.push scope p settings.extended parameter trees token with e | next
    · simp [hq, Except.bind] at hp
    · rw [hq] at hp
      obtain ⟨_, b₁, hg₁, hg₂⟩ := gives_bind.mp hg
      obtain ⟨b₁', hg₁', hf₁, he₁⟩ := Build.token_gives hf hq
      obtain ⟨-, rfl⟩ := hg₁.unique hg₁'
      obtain ⟨b₂, hg₂', -, he₂⟩ := Build.tokens_give hf₁ hp
      obtain ⟨-, rfl⟩ := hg₂.unique hg₂'
      have hl := h.token hst hg₁ (he₂.trans he) hq
      exact hl.trans he₁.arenaSize (fun s₁ h₁ _ hst₁ => ih h₁ hf₁ hst₁ hg₂ hp)

variable (A) in
theorem reached_start {r : Arena p.Value} (hc : A.Claimed 0 A.start r) :
    A.Reached {} ⟨A.words.toArray, A.start⟩ := by
  refine ⟨Builder.sound_empty, .start, ⟨r, hc⟩, ?_, by simp⟩
  have hp := A.passes
  cases p with
  | double =>
    have hw : A.words = [.float A.argument.re, .float A.argument.im] := hp
    simp [Build.parameter, Holds, Splits, hw]
  | high =>
    obtain ⟨l, hw, hread, hout⟩ := hp
    exact ⟨l, by simp [hw], hread, stable_of_outside hout 0⟩

theorem exists_steps {tokens : List Token} {t : Tree} {b₁ : Builder p} {n : Nat} {r : Arena p.Value}
    (hc : A.Claimed 0 A.start r)
    (hp : Tree.parse scope p settings.extended parameter tokens = .ok t)
    (hg : Gives (tokens.forM (Build.token scope settings parameter)) {} ⟨⟩ b₁)
    (hf : Gives Build.finish b₁ n A.final) :
    ∃ is v s l r', A.final.code.body = is ++ [.ret v] ∧ A.Steps is s ∧ s.values[v]? = some (.place l) ∧
      s.memory.read? l = t.value? scope parameter (fun id z => some (A.meaning id z)) A.argument ∧
      A.Claimed A.final.arenaSize s.memory r' := by
  obtain ⟨o, v, b₂, hs, hres, -, hfinal⟩ := Build.gives_finish.mp hf
  have hpush := Tree.pushAll_of_parse hp
  obtain ⟨b₁', hg', hfol, -⟩ := Build.tokens_give (.initial scope) hpush
  obtain ⟨-, rfl⟩ := hg.unique hg'
  have hfit := hfol.sound.stack o (by simp [hs])
  have hcont := ((Build.Adds.result hfit).continues hfol.sound hres).2
  have he₂ : b₂.Extends A.final := by
    rw [hfinal]
    exact ⟨List.prefix_refl _, List.prefix_refl _, Nat.le_refl _, List.Subset.refl _⟩
  have h₀ := A.reached_start hc
  obtain ⟨s₁, h₁, -, hst⟩ := h₀.tokens (.initial scope) .nil hg (hcont.toExtends.trans he₂) hpush
  rw [hs] at hst
  obtain ⟨⟨z, ht, hz⟩, -⟩ := List.forall₂_cons.mp hst
  obtain ⟨s₂, h₂, -, l, hv, hread⟩ := h₁.result hres he₂ hz
  obtain ⟨r', hr'⟩ := h₂.arena
  have hn : b₂.arenaSize = A.final.arenaSize := by rw [hfinal]
  exact ⟨b₂.code.body, v, s₂, l, r', by rw [hfinal], h₂.steps, hv, hread.trans ht.symm, hn ▸ hr'⟩

end Tokens

end Activation

end Phasor
