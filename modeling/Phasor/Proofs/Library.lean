import Phasor.Proofs.Building
import Phasor.Proofs.Memory

namespace Phasor

variable {p : Precision}

structure Artifact.Rests (a : Artifact p) (r : Arena p.Value) : Prop where
  capacity : r.slots.length = a.arenaSize
  pinned : r.pinned = a.pinned
  cursor : r.cursor = 0

theorem Artifact.rests_arena (a : Artifact p) : a.Rests a.arena :=
  ⟨by simp [Artifact.arena, Arena.provision], rfl, rfl⟩

structure Member (p : Precision) where
  installed : Installed
  scope : Scope
  settings : Settings
  parameter : String
  tokens : List Token
  artifact : Artifact p
  built : Artifact.ofTokens scope settings parameter tokens = .ok artifact
  code : installed.code = artifact.code
  callees : installed.callees = artifact.callees

namespace Member

def id (f : Member p) : Nat := f.installed.id

def Reads (f : Member p) (t : Tree) : Prop :=
  Tree.parse f.scope p f.settings.extended f.parameter f.tokens = .ok t

theorem exists_tree (f : Member p) :
    ∃ t, f.Reads t ∧ ∀ id, id ∈ f.artifact.callees ↔ id ∈ t.calls f.scope p := by
  obtain ⟨t, _, _, _, ht, -, -, -, hc, -⟩ := Artifact.ofTokens_eq_ok f.built
  exact ⟨t, ht, hc⟩

theorem Reads.unique {f : Member p} {t u : Tree} (ht : f.Reads t) (hu : f.Reads u) : t = u := by
  unfold Reads at *
  rw [ht] at hu
  exact Except.ok.inj hu

theorem Reads.wellFormed {f : Member p} {t : Tree} (h : f.Reads t) :
    t.WellFormed f.scope p f.parameter :=
  (Tree.parse_eq_ok.mp (Tree.parse_extended h)).1

end Member

abbrev Library (p : Precision) := List (Member p)

namespace Library

def ids (lib : Library p) : List Nat := lib.map Member.id

def functions (lib : Library p) : List Installed := lib.map Member.installed

theorem mem_ids {lib : Library p} {id : Nat} : id ∈ ids lib ↔ ∃ f ∈ lib, f.id = id := by
  simp [ids]

/-- Every function calls only functions that come after it in the list, and no number occurs twice.
-/
inductive Linked : Library p → Prop
  | nil : Linked []
  | cons {f : Member p} {lib : Library p} (calls : ∀ id ∈ f.artifact.callees, id ∈ ids lib)
      (fresh : f.id ∉ ids lib) (rest : Linked lib) : Linked (f :: lib)

def Means (meaning : Nat → p.Value → p.Value) (lib : Library p) : Prop :=
  ∀ f ∈ lib, ∀ t, f.Reads t → ∀ x,
    t.value? f.scope f.parameter (fun id z => some (meaning id z)) x = some (meaning f.id x)

theorem Linked.calls_mem {lib : Library p} (h : Linked lib) {f : Member p} (hf : f ∈ lib) :
    ∀ id ∈ f.artifact.callees, id ∈ ids lib := by
  induction h with
  | nil => simp at hf
  | cons calls fresh rest ih =>
    intro id hid
    rcases List.mem_cons.mp hf with rfl | hf
    · exact List.mem_cons_of_mem _ (calls id hid)
    · exact List.mem_cons_of_mem _ (ih hf id hid)

theorem value?_update {meaning : Nat → p.Value → p.Value} {id : Nat} (F : p.Value → p.Value) {scope : Scope}
    {t : Tree} (h : id ∉ t.calls scope p) (parameter : String) (x : p.Value) :
    t.value? scope parameter (fun k z => some ((if k = id then F else meaning k) z)) x =
      t.value? scope parameter (fun k z => some (meaning k z)) x := by
  apply Tree.value?_congr
  intro k hk
  have hne : k ≠ id := fun he => h (he ▸ hk)
  simp [hne]

theorem Means.extend {meaning : Nat → p.Value → p.Value} {lib : Library p} (hm : Means meaning lib)
    (hl : Linked lib) {f : Member p} (calls : ∀ id ∈ f.artifact.callees, id ∈ ids lib)
    (fresh : f.id ∉ ids lib) :
    ∃ F, Means (fun k => if k = f.id then F else meaning k) (f :: lib) := by
  obtain ⟨t, ht, hcalls⟩ := f.exists_tree
  have hv (x : p.Value) : ∃ y, t.value? f.scope f.parameter (fun id z => some (meaning id z)) x = some y :=
    ht.wellFormed.value x (by simp)
  obtain ⟨F, hF⟩ := Classical.skolem.mp hv
  refine ⟨F, ?_⟩
  intro g hg u hu x
  rcases List.mem_cons.mp hg with rfl | hg
  · obtain rfl := ht.unique hu
    have hnot : g.id ∉ t.calls g.scope p := fun hk => fresh (calls _ ((hcalls _).mpr hk))
    rw [value?_update F hnot, hF x]
    simp
  · obtain ⟨u', hu', hcalls'⟩ := g.exists_tree
    obtain rfl := hu.unique hu'
    have hnot : f.id ∉ u.calls g.scope p := fun hk => fresh (hl.calls_mem hg _ ((hcalls' _).mpr hk))
    have hne : g.id ≠ f.id := fun he => fresh (mem_ids.mpr ⟨g, hg, he⟩)
    rw [value?_update F hnot, hm g hg u hu x]
    simp [hne]

theorem Linked.exists_meaning {lib : Library p} (h : Linked lib) :
    ∃ meaning : Nat → p.Value → p.Value, Means meaning lib := by
  induction h with
  | nil => exact ⟨fun _ z => z, by simp [Means]⟩
  | @cons f lib calls fresh rest ih =>
    obtain ⟨meaning, hm⟩ := ih
    obtain ⟨F, hF⟩ := hm.extend rest calls fresh
    exact ⟨_, hF⟩

end Library

def Memory.AtRest (m : Memory p) (lib : Library p) : Prop :=
  ∀ f ∈ lib, ∃ r, m.arenas.get? f.id = some r ∧ f.artifact.Rests r

theorem Memory.AtRest.of_agrees {xs : List Nat} {m m' : Memory p} {lib : Library p} (h : m.AtRest lib)
    (ha : m.AgreesOff xs m') (hx : ∀ id ∈ xs, id ∉ lib.ids) : m'.AtRest lib := by
  intro f hf
  obtain ⟨r, hr, hrest⟩ := h f hf
  refine ⟨r, ?_, hrest⟩
  rw [ha.arenas f.id (fun hid => hx _ hid (Library.mem_ids.mpr ⟨f, hf, rfl⟩)), hr]

namespace Machine

/-- The words stand for the argument `x`. One that is passed by its address lies outside the
functions `ids`. -/
def Passes : (p : Precision) → List Nat → Memory p → List Word → p.Value → Prop
  | .double, _, _, ws, x => ws = [.float x.re, .float x.im]
  | .high, ids, m, ws, x => ∃ l, ws = [.place l] ∧ m.read? l = some x ∧ l.Outside ids

theorem Passes.length {ids : List Nat} {m : Memory p} {ws : List Word} {x : p.Value}
    (h : Passes p ids m ws x) : ws.length = p.parameters.length := by
  cases p with
  | double =>
    rw [show ws = [.float x.re, .float x.im] from h]
    rfl
  | high =>
    obtain ⟨l, rfl, -⟩ := h
    rfl

theorem Passes.mono {ids ids' : List Nat} {m : Memory p} {ws : List Word} {x : p.Value}
    (h : Passes p ids' m ws x) (hs : ids ⊆ ids') : Passes p ids m ws x := by
  cases p with
  | double => exact h
  | high =>
    obtain ⟨l, hl, hr, ho⟩ := h
    exact ⟨l, hl, hr, ho.mono hs⟩

def Serves (call : Caller p) (meaning : Nat → p.Value → p.Value) (lib : Library p) : Prop :=
  ∀ id ∈ lib.ids, ∀ (m : Memory p) (ws : List Word) (x : p.Value), m.AtRest lib →
    Passes p lib.ids m ws x → ∃ l m', call id ws m = some (l, m') ∧ m'.read? l = some (meaning id x) ∧
      m'.AtRest lib ∧ m.AgreesOff lib.ids m'

end Machine

end Phasor
