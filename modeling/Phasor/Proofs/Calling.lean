import Phasor.Proofs.Simulation

namespace Phasor

variable {p : Precision}

namespace Machine

theorem runBlock_cons {call : Caller p} {code : Code} {owner : Nat} {values : Array Word} {m m' : Memory p}
    {i : Instr} {w : Word} (h : step? call code owner values m i = some (w, m')) (rest : List Instr) :
    runBlock call code owner (i :: rest) values m = runBlock call code owner rest (values.push w) m' := by
  cases i with
  | ret v => simp [step?] at h
  | _ => simp only [runBlock, h, Option.bind_eq_bind, Option.bind_some]

inductive Executes (call : Caller p) (code : Code) (owner : Nat) (values : Array Word) (m : Memory p) :
    List Instr → Array Word → Memory p → Prop
  | start : Executes call code owner values m [] values m
  | step {is : List Instr} {us : Array Word} {m₁ m₂ : Memory p} {i : Instr} {w : Word}
      (h : Executes call code owner values m is us m₁)
      (hs : step? call code owner us m₁ i = some (w, m₂)) :
      Executes call code owner values m (is ++ [i]) (us.push w) m₂

/-- While the function `id` is called on `ws` in the memory `m`, the memory becomes `m'`, and at
that point the functions `active` have begun and not returned. -/
inductive During : List Installed → Nat → List Word → Memory p → List Nat → Memory p → Prop
  | own {f : Installed} {earlier : List Installed} {ws : List Word} {m m' : Memory p} {is : List Instr}
      {us : Array Word} (hp : is <+: f.code.body)
      (h : Executes (call earlier) f.code f.id ws.toArray m is us m') :
      During (f :: earlier) f.id ws m [f.id] m'
  | nested {f : Installed} {earlier : List Installed} {ws vs : List Word} {m m₁ m' : Memory p}
      {is : List Instr} {us : Array Word} {signature target id : Nat} {args active : List Nat}
      (hp : is ++ [.callEntry signature target args] <+: f.code.body)
      (h : Executes (call earlier) f.code f.id ws.toArray m is us m₁)
      (ht : us[target]? = some (.entry id)) (hw : words us args = some vs)
      (hd : During earlier id vs m₁ active m') : During (f :: earlier) f.id ws m (f.id :: active) m'
  | later {f : Installed} {earlier : List Installed} {id : Nat} {ws : List Word} {m m' : Memory p}
      {active : List Nat} (hne : f.id ≠ id) (hd : During earlier id ws m active m') :
      During (f :: earlier) id ws m active m'

end Machine

namespace Activation

variable {A : Activation p}

theorem Steps.runBlock {is : List Instr} {s : Snapshot p} (h : A.Steps is s) (rest : List Instr) :
    Machine.runBlock A.call A.final.code A.owner (is ++ rest) A.words.toArray A.start =
      Machine.runBlock A.call A.final.code A.owner rest s.values s.memory := by
  induction h generalizing rest with
  | start => rfl
  | step _ _ hs _ _ ih =>
    rw [List.append_assoc, ih]
    exact Machine.runBlock_cons hs rest

theorem Steps.last {is : List Instr} {i : Instr} {s : Snapshot p} (h : A.Steps (is ++ [i]) s) :
    ∃ s₀ w m, A.Steps is s₀ ∧ A.Proper s₀ i ∧ A.step? s₀ i = some (w, m) ∧ s = ⟨s₀.values.push w, m⟩ := by
  generalize hj : is ++ [i] = js at h
  cases h with
  | start => simp at hj
  | step h proper hs _ _ =>
    obtain ⟨rfl, hi⟩ := List.append_inj' hj rfl
    obtain rfl := List.singleton_inj.mp hi
    exact ⟨_, _, _, h, proper, hs, rfl⟩

theorem Steps.of_prefix {is js : List Instr} {s : Snapshot p} (h : A.Steps js s) (hp : is <+: js) :
    ∃ s', A.Steps is s' := by
  induction h with
  | start =>
    rw [List.prefix_nil.mp hp]
    exact ⟨_, .start⟩
  | step h proper hs rests outer ih =>
    rcases List.prefix_concat_iff.mp hp with rfl | hp
    · exact ⟨_, h.step proper hs rests outer⟩
    · exact ih hp

theorem Steps.eq_of_executes {is : List Instr} {s : Snapshot p} {us : Array Word} {m : Memory p}
    (hs : A.Steps is s)
    (h : Machine.Executes A.call A.final.code A.owner A.words.toArray A.start is us m) : s = ⟨us, m⟩ := by
  induction h generalizing s with
  | start =>
    generalize hj : ([] : List Instr) = js at hs
    cases hs with
    | start => rfl
    | step => simp at hj
  | step h hstep ih =>
    obtain ⟨s₀, w, m, h₀, -, hw, rfl⟩ := hs.last
    rw [ih h₀] at hw ⊢
    unfold Activation.step? at hw
    rw [hstep] at hw
    cases hw
    rfl

theorem Steps.at_prefix {is js : List Instr} {v : Nat} {s : Snapshot p} {us : Array Word} {m : Memory p}
    (h : A.Steps is s) (hb : A.final.code.body = is ++ [.ret v]) (hj : js <+: A.final.code.body)
    (he : Machine.Executes A.call A.final.code A.owner A.words.toArray A.start js us m) :
    m.AtRest A.library ∧ A.start.AgreesOff (A.owner :: A.library.ids) m ∧
      ∀ signature target args, js ++ [.callEntry signature target args] <+: A.final.code.body →
        A.Proper ⟨us, m⟩ (.callEntry signature target args) := by
  rw [hb] at hj ⊢
  have hjs : js <+: is := by
    refine (List.prefix_concat_iff.mp hj).resolve_left ?_
    rintro rfl
    generalize hk : is ++ [Instr.ret v] = ks at he
    cases he with
    | start => simp at hk
    | step _ hs =>
      obtain rfl := List.singleton_inj.mp (List.append_inj' hk rfl).2
      simp [Machine.step?] at hs
  obtain ⟨s', hs'⟩ := h.of_prefix hjs
  obtain rfl := hs'.eq_of_executes he
  refine ⟨hs'.rests, hs'.outer, ?_⟩
  intro signature target args hc
  rcases List.prefix_concat_iff.mp hc with heq | hc
  · simp at heq
  · obtain ⟨s₁, h₁⟩ := h.of_prefix hc
    obtain ⟨s₀, _, _, h₀, proper, -⟩ := h₁.last
    rw [h₀.eq_of_executes he] at proper
    exact proper

end Activation

theorem Memory.atRest_cons {m : Memory p} {f : Member p} {lib : Library p} :
    m.AtRest (f :: lib) ↔ (∃ r, m.arenas.get? f.id = some r ∧ f.artifact.Rests r) ∧ m.AtRest lib := by
  simp [Memory.AtRest]

structure Member.Runs (f : Member p) (lib : Library p) (call : Machine.Caller p) (m : Memory p) (ws : List Word)
    (y : Option p.Value) : Prop where
  result : ∃ l m', Machine.runBlock call f.installed.code f.id f.installed.code.body ws.toArray m = some (l, m') ∧
    m'.read? l = y ∧ m'.AtRest (f :: lib) ∧ m.AgreesOff (f.id :: lib.ids) m'
  reached : ∀ js us m', js <+: f.installed.code.body →
    Machine.Executes call f.installed.code f.id ws.toArray m js us m' →
      m'.AtRest lib ∧ m.AgreesOff (f.id :: lib.ids) m'
  nested : ∀ js us m' signature target args, js <+: f.installed.code.body →
    Machine.Executes call f.installed.code f.id ws.toArray m js us m' →
      js ++ [.callEntry signature target args] <+: f.installed.code.body →
        ∃ id vs z, us[target]? = some (.entry id) ∧ id ∈ lib.ids ∧ Machine.words us args = some vs ∧
          Machine.Passes p lib.ids m' vs z

theorem Member.runs {f : Member p} {lib : Library p} {call : Machine.Caller p}
    {meaning : Nat → p.Value → p.Value} {m : Memory p} {ws : List Word} {x : p.Value} {t : Tree} (ht : f.Reads t)
    (hs : Machine.Serves call meaning lib) (calls : ∀ id ∈ f.artifact.callees, id ∈ lib.ids)
    (fresh : f.id ∉ lib.ids) (hr : m.AtRest (f :: lib)) (hx : Machine.Passes p (f.id :: lib.ids) m ws x) :
    f.Runs lib call m ws (t.value? f.scope f.parameter (fun id z => some (meaning id z)) x) := by
  obtain ⟨u, b₁, b₂, n, hu, hg, hf, -, -, ha⟩ := Artifact.ofTokens_eq_ok f.built
  obtain rfl := Member.Reads.unique ht hu
  obtain ⟨⟨r, harena, hrest⟩, hlib⟩ := Memory.atRest_cons.mp hr
  have hsize : f.artifact.arenaSize = b₂.arenaSize := by rw [ha]
  have hpinned : f.artifact.pinned = b₂.pinned := by rw [ha]
  have hcallees : f.artifact.callees = b₂.callees := by rw [ha]
  have hcode : f.installed.code = b₂.code := by rw [f.code, ha]
  let A : Activation p := ⟨call, meaning, lib, b₂, f.id, ws, x, m, hs, hlib, fresh, hcallees ▸ calls, hx⟩
  have hclaim : A.Claimed 0 A.start r :=
    ⟨harena, hrest.capacity.trans hsize, hrest.pinned.trans hpinned, by simp [hrest.cursor]⟩
  obtain ⟨is, v, s, l, r', hbody, hsteps, hv, hread, hc⟩ := Activation.exists_steps hclaim hu hg hf
  -- a run claims every slot once, so the cursor has wrapped to the start
  have hcursor : r'.cursor = 0 := by rw [hc.cursor, if_pos rfl]
  have hrest' : f.artifact.Rests r' :=
    ⟨hc.capacity.trans hsize.symm, hc.pinned.trans hpinned.symm, hcursor⟩
  rw [← hcode] at hbody
  constructor
  · refine ⟨l, s.memory, ?_, hread, Memory.atRest_cons.mpr ⟨⟨r', hc.arena, hrest'⟩, hsteps.rests⟩, hsteps.outer⟩
    rw [hbody, hcode]
    refine (hsteps.runBlock [.ret v]).trans ?_
    simp only [Machine.runBlock, hv]
    rfl
  · intro js us m' hj he
    rw [hcode] at hj hbody he
    obtain ⟨hrests, houter, -⟩ := hsteps.at_prefix hbody hj he
    exact ⟨hrests, houter⟩
  · intro js us m' signature target args hj he hnext
    rw [hcode] at hj hbody he hnext
    obtain ⟨-, -, hproper⟩ := hsteps.at_prefix hbody hj he
    exact hproper signature target args hnext

namespace Library

theorem Means.tail {meaning : Nat → p.Value → p.Value} {f : Member p} {lib : Library p}
    (h : Means meaning (f :: lib)) : Means meaning lib :=
  fun g hg => h g (List.mem_cons_of_mem f hg)

theorem Linked.serves {meaning : Nat → p.Value → p.Value} {lib : Library p} (h : Linked lib)
    (hm : Means meaning lib) : Machine.Serves (Machine.call lib.functions) meaning lib := by
  induction h with
  | nil =>
    intro id hid
    simp [ids] at hid
  | @cons f lib calls fresh rest ih =>
    intro id hid m ws x hr hx
    have hserves := ih hm.tail
    by_cases he : f.id = id
    · subst he
      obtain ⟨t, ht, -⟩ := f.exists_tree
      obtain ⟨l, m', hrun, hread, hrest, hag⟩ := (Member.runs ht hserves calls fresh hr hx).result
      refine ⟨l, m', ?_, ?_, hrest, hag⟩
      · have hf : f.installed.id = f.id := rfl
        simp only [functions, List.map_cons, Machine.call, hf, ↓reduceIte]
        exact hrun
      · rw [hread]
        exact hm f (by simp) t ht x
    · have hid' : id ∈ lib.ids := (List.mem_cons.mp hid).resolve_left (Ne.symm he)
      have hsub : lib.ids ⊆ ids (f :: lib) := List.subset_cons_self _ _
      obtain ⟨⟨r, harena, hrest⟩, hlib⟩ := Memory.atRest_cons.mp hr
      obtain ⟨l, m', hcall, hread, hlib', hag⟩ := hserves id hid' m ws x hlib (hx.mono hsub)
      refine ⟨l, m', ?_, hread, Memory.atRest_cons.mpr ⟨⟨r, ?_, hrest⟩, hlib'⟩, hag.mono hsub⟩
      · have hne : f.installed.id ≠ id := he
        simp only [functions, List.map_cons, Machine.call, hne, ↓reduceIte]
        exact hcall
      · rw [hag.arenas f.id fresh, harena]

theorem Linked.during {lib : Library p} (h : Linked lib) {id : Nat} {ws : List Word} {m m' : Memory p}
    {x : p.Value} {active : List Nat} (hr : m.AtRest lib) (hx : Machine.Passes p lib.ids m ws x)
    (hd : Machine.During lib.functions id ws m active m') :
    m.AgreesOff lib.ids m' ∧
      ∀ g ∈ lib, g.id ∉ active → ∃ r, m'.arenas.get? g.id = some r ∧ g.artifact.Rests r := by
  -- that nothing else changes is part of the induction, for a function that is skipped has to stay at rest
  induction h generalizing id ws m m' x active with
  | nil => cases hd
  | @cons f lib calls fresh rest ih =>
    obtain ⟨t, ht, -⟩ := f.exists_tree
    obtain ⟨meaning, hm⟩ := rest.exists_meaning
    have hserves := rest.serves hm
    have hsub : lib.ids ⊆ ids (f :: lib) := List.subset_cons_self _ _
    cases hd with
    | own hp he =>
      obtain ⟨hrest, hag⟩ := (Member.runs ht hserves calls fresh hr hx).reached _ _ _ hp he
      refine ⟨hag, ?_⟩
      intro g hg hnot
      rcases List.mem_cons.mp hg with rfl | hg
      · exact absurd (List.mem_singleton_self _) hnot
      · exact hrest g hg
    | nested hp he htarget hw hd =>
      have hrun := Member.runs ht hserves calls fresh hr hx
      have hp' := (List.prefix_append _ _).trans hp
      obtain ⟨hrest, hag⟩ := hrun.reached _ _ _ hp' he
      obtain ⟨id', vs', z, htarget', -, hw', hz⟩ := hrun.nested _ _ _ _ _ _ hp' he hp
      rw [hw] at hw'
      obtain rfl := Option.some.inj hw'
      obtain ⟨hag', hrest'⟩ := ih hrest hz hd
      refine ⟨hag.trans (hag'.mono hsub), ?_⟩
      intro g hg hnot
      rcases List.mem_cons.mp hg with rfl | hg
      · exact absurd List.mem_cons_self hnot
      · exact hrest' g hg (fun hmem => hnot (List.mem_cons_of_mem _ hmem))
    | later hne hd =>
      obtain ⟨⟨r, harena, hrest⟩, hlib⟩ := Memory.atRest_cons.mp hr
      obtain ⟨hag, hrest'⟩ := ih hlib (hx.mono hsub) hd
      refine ⟨hag.mono hsub, ?_⟩
      intro g hg hnot
      rcases List.mem_cons.mp hg with rfl | hg
      · exact ⟨r, (hag.arenas g.id fresh).trans harena, hrest⟩
      · exact hrest' g hg hnot

end Library

theorem Memory.AtRest.of_arenas {m m' : Memory p} {lib : Library p} (h : m.AtRest lib)
    (ha : m'.arenas = m.arenas) : m'.AtRest lib := by
  unfold Memory.AtRest at *
  rwa [ha]

namespace Machine

theorem passArgument_arenas (x : p.Value) (m : Memory p) : (passArgument p x m).2.arenas = m.arenas := by
  cases p <;> rfl

theorem passes_passArgument (ids : List Nat) (x : p.Value) (m : Memory p) :
    Passes p ids (passArgument p x m).2 (passArgument p x m).1 x := by
  cases p with
  | double => rfl
  | high => exact ⟨.argument, rfl, rfl, trivial⟩

def DuringEntry (functions : List Installed) (id : Nat) (z : p.Value) (m : Memory p) (active : List Nat)
    (m' : Memory p) : Prop :=
  During functions id (passArgument p z m).1 (passArgument p z m).2 active m'

end Machine

namespace Library

theorem Linked.enter {meaning : Nat → p.Value → p.Value} {lib : Library p} {m : Memory p} {id : Nat}
    (h : Linked lib) (hm : Means meaning lib) (hid : id ∈ lib.ids) (hr : m.AtRest lib) (x : p.Value) :
    ∃ m', Machine.enter lib.functions id x m = some (meaning id x, m') ∧ m'.AtRest lib := by
  have hr' := hr.of_arenas (Machine.passArgument_arenas x m)
  have hx := Machine.passes_passArgument lib.ids x m
  obtain ⟨l, m', hcall, hread, hrest, -⟩ := h.serves hm id hid _ _ x hr' hx
  refine ⟨m', ?_, hrest⟩
  simp [Machine.enter, hcall, hread]

theorem Linked.duringEntry {lib : Library p} {m m' : Memory p} {id : Nat} {z : p.Value} {active : List Nat}
    (h : Linked lib) (hr : m.AtRest lib) (hd : Machine.DuringEntry lib.functions id z m active m') :
    ∀ g ∈ lib, g.id ∉ active → ∃ r, m'.arenas.get? g.id = some r ∧ g.artifact.Rests r := by
  have hr' := hr.of_arenas (Machine.passArgument_arenas z m)
  exact (h.during hr' (Machine.passes_passArgument lib.ids z m) hd).2

end Library

end Phasor
