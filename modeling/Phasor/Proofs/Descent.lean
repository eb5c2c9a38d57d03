import Phasor.Proofs.Stores

namespace Phasor

variable {p : Precision}

namespace Machine

/-- Runs a function among `functions`; a nested call finds any of them, until the depth is used up.
-/
def callWithin (functions : List Installed) : Nat → Caller p
  | 0, _, _, _ => none
  | depth + 1, id, args, m =>
    match functions.find? (·.id = id) with
    | some f => runBlock (callWithin functions depth) f.code id f.code.body args.toArray m
    | none => none

inductive Active (functions : List Installed) : Nat → List Word → Memory p → List Nat → Prop
  | own {f : Installed} {ws : List Word} {m : Memory p} (hf : f ∈ functions) : Active functions f.id ws m [f.id]
  | nested {f : Installed} {ws vs : List Word} {m m₁ : Memory p} {is : List Instr} {us : Array Word}
      {depth signature target id : Nat} {args active : List Nat} (hf : f ∈ functions)
      (hp : is ++ [.callEntry signature target args] <+: f.code.body)
      (h : Executes (callWithin functions depth) f.code f.id ws.toArray m is us m₁)
      (ht : us[target]? = some (.entry id)) (hw : words us args = some vs)
      (ha : Active functions id vs m₁ active) : Active functions f.id ws m (f.id :: active)

section Block

variable {call₁ call₂ : Caller p} {code : Code} {owner : Nat} {callees : List Nat}

theorem step?_congr {before : List Instr} {values : Array Word} {i : Instr} (hd : Defines p owner before values)
    (hi : i.Placed p callees before)
    (h : ∀ id ∈ callees, ∀ ws m, ws.length = p.parameters.length → call₁ id ws m = call₂ id ws m) (m : Memory p) :
    step? call₁ code owner values m i = step? call₂ code owner values m i := by
  cases i with
  | callEntry signature target args =>
    obtain ⟨id, hid, htarget, hlength⟩ := hd.callee hi
    simp only [step?, htarget, Option.bind_eq_bind, Option.bind_some]
    cases hw : words values args with
    | none => rfl
    | some ws => simp only [Option.bind_some, h id hid ws m (hlength ws hw)]
  | _ => rfl

theorem runBlock_congr {body : List Instr} (hbody : Code.Placed p callees body) {v : Nat} {values : Array Word}
    (hv : Defines p owner [] values)
    (h : ∀ id ∈ callees, ∀ ws m, ws.length = p.parameters.length → call₁ id ws m = call₂ id ws m) (m : Memory p) :
    runBlock call₁ code owner (body ++ [.ret v]) values m = runBlock call₂ code owner (body ++ [.ret v]) values m := by
  suffices hrest : ∀ rest before us m₁, before ++ rest = body → Defines p owner before us →
      runBlock call₁ code owner (rest ++ [.ret v]) us m₁ = runBlock call₂ code owner (rest ++ [.ret v]) us m₁ from
    hrest body [] values m rfl hv
  intro rest
  induction rest with
  | nil =>
    intro before us m₁ _ _
    rfl
  | cons i rest ih =>
    intro before us m₁ hsplit hd
    have hi : i.Placed p callees before := hbody before i ⟨rest, by simpa using hsplit⟩
    rw [List.cons_append, runBlock_cons_eq hi, runBlock_cons_eq hi, step?_congr hd hi h]
    cases hs : step? call₂ code owner us m₁ i with
    | none => rfl
    | some r => exact ih (before ++ [i]) (us.push r.1) r.2 (by simpa using hsplit) (hd.push hs)

end Block

theorem Executes.defines {call : Caller p} {code : Code} {owner : Nat} {values us : Array Word} {m m' : Memory p}
    {is : List Instr} (h : Executes call code owner values m is us m') (hv : Defines p owner [] values) :
    Defines p owner is us := by
  induction h with
  | start => exact hv
  | step _ hs ih => exact ih.push hs

end Machine

namespace Library

variable {whole lib : Library p}

theorem Linked.find? (h : whole.Linked) {f : Member p} (hf : f ∈ whole) :
    whole.functions.find? (·.id = f.id) = some f.installed := by
  induction h with
  | nil => cases hf
  | @cons g lib calls fresh rest ih =>
    have hfun : functions (g :: lib) = g.installed :: lib.functions := rfl
    rw [hfun, List.find?_cons]
    rcases List.mem_cons.mp hf with rfl | hf
    · simp [Member.id]
    · have hne : g.installed.id ≠ f.id := fun he => fresh (mem_ids.mpr ⟨f, hf, he.symm⟩)
      simp only [hne, decide_false]
      exact ih hf

theorem find?_eq_none {id : Nat} (h : id ∉ lib.ids) : lib.functions.find? (·.id = id) = none := by
  rw [List.find?_eq_none]
  intro f hf
  obtain ⟨g, hg, rfl⟩ := List.mem_map.mp hf
  have hne : g.installed.id ≠ id := fun he => h (mem_ids.mpr ⟨g, hg, he⟩)
  simpa using hne

theorem call_eq_none {id : Nat} (h : id ∉ lib.ids) (ws : List Word) (m : Memory p) :
    Machine.call lib.functions id ws m = none := by
  induction lib with
  | nil => rfl
  | cons f lib ih =>
    have hne : f.installed.id ≠ id := fun he => h (he ▸ List.mem_cons_self)
    simp only [functions, List.map_cons, Machine.call, hne, ↓reduceIte]
    exact ih (fun hid => h (List.mem_cons_of_mem _ hid))

theorem Linked.of_suffix (h : whole.Linked) (hs : lib <:+ whole) : lib.Linked := by
  induction h with
  | nil =>
    rw [List.suffix_nil.mp hs]
    exact .nil
  | cons calls fresh rest ih =>
    rcases List.suffix_cons_iff.mp hs with rfl | hs
    · exact .cons calls fresh rest
    · exact ih hs

theorem Linked.callWithin_of_suffix (h : whole.Linked) (hs : lib <:+ whole) {depth : Nat} (hd : lib.length ≤ depth)
    {id : Nat} (hid : id ∈ lib.ids) {ws : List Word} (hw : ws.length = p.parameters.length) (m : Memory p) :
    Machine.callWithin whole.functions depth id ws m = Machine.call lib.functions id ws m := by
  -- what a function calls stands further down, and the depth that is left suffices there
  induction lib generalizing depth id ws m with
  | nil => cases hid
  | cons f lib ih =>
    have hsuffix : lib <:+ whole := (List.suffix_cons f lib).trans hs
    rw [List.length_cons] at hd
    by_cases he : f.id = id
    · subst he
      have hf : f ∈ whole := hs.subset List.mem_cons_self
      obtain ⟨d, rfl⟩ : ∃ d, depth = d + 1 := ⟨depth - 1, by omega⟩
      obtain ⟨body, v, hbody, hplaced, -⟩ := Artifact.placed_ofTokens f.built
      have hnested : ∀ id ∈ f.artifact.callees, ∀ (vs : List Word) (m₁ : Memory p), vs.length = p.parameters.length →
          Machine.callWithin whole.functions d id vs m₁ = Machine.call (functions lib) id vs m₁ := by
        cases h.of_suffix hs with
        | cons calls _ _ =>
          intro id hid vs m₁ hvs
          exact ih hsuffix (by omega) (calls id hid) hvs m₁
      have hcall : Machine.call (functions (f :: lib)) f.id ws m =
          Machine.runBlock (Machine.call (functions lib)) f.installed.code f.id f.installed.code.body ws.toArray m :=
        if_pos rfl
      simp only [Machine.callWithin, h.find? hf]
      rw [hcall, f.code, hbody]
      exact Machine.runBlock_congr hplaced (Machine.defines_arguments _ hw) hnested m
    · have hne : f.installed.id ≠ id := he
      have hcall : Machine.call (functions (f :: lib)) id ws m = Machine.call (functions lib) id ws m := if_neg hne
      rw [hcall]
      exact ih hsuffix (Nat.le_of_succ_le hd) ((List.mem_cons.mp hid).resolve_left (Ne.symm he)) hw m

theorem Linked.callWithin_eq (h : whole.Linked) {depth : Nat} (hd : whole.length ≤ depth) (id : Nat) {ws : List Word}
    (hw : ws.length = p.parameters.length) (m : Memory p) :
    Machine.callWithin whole.functions depth id ws m = Machine.call whole.functions id ws m := by
  by_cases hid : id ∈ whole.ids
  · exact h.callWithin_of_suffix (List.suffix_refl _) hd hid hw m
  · rw [call_eq_none hid]
    cases depth with
    | zero => rfl
    | succ d => simp only [Machine.callWithin, find?_eq_none hid]

theorem callEntry_target {f : Member p} {is : List Instr} {us : Array Word} {signature target id : Nat}
    {args : List Nat} {vs : List Word} (hp : is ++ [.callEntry signature target args] <+: f.installed.code.body)
    (hd : Machine.Defines p f.id is us) (ht : us[target]? = some (.entry id)) (hw : Machine.words us args = some vs) :
    id ∈ f.artifact.callees ∧ vs.length = p.parameters.length := by
  obtain ⟨body, v, hbody, hplaced, -⟩ := Artifact.placed_ofTokens f.built
  rw [f.code, hbody] at hp
  have hprefix : is ++ [.callEntry signature target args] <+: body := by
    refine (List.prefix_concat_iff.mp hp).resolve_left ?_
    intro heq
    simp at heq
  obtain ⟨id', hid, htarget, hlength⟩ := hd.callee (hplaced is _ hprefix)
  rw [htarget] at ht
  cases ht
  exact ⟨hid, hlength vs hw⟩

theorem active_pairwise (hdown : ∀ f ∈ lib, ∀ id ∈ f.artifact.callees, id < f.id) {id : Nat} {ws : List Word}
    {m : Memory p} {active : List Nat} (hw : ws.length = p.parameters.length)
    (ha : Machine.Active lib.functions id ws m active) : active.Pairwise (· > ·) ∧ ∀ n ∈ active, n ≤ id := by
  induction ha with
  | own => simp
  | @nested f ws vs m m₁ is us depth signature target id args active hf hp he ht hv _ ih =>
    obtain ⟨g, hg, rfl⟩ := List.mem_map.mp hf
    obtain ⟨hid, hvs⟩ := callEntry_target hp (he.defines (Machine.defines_arguments _ hw)) ht hv
    obtain ⟨hpairs, hle⟩ := ih hvs
    have hlt : id < g.installed.id := hdown g hg id hid
    refine ⟨List.pairwise_cons.mpr ⟨?_, hpairs⟩, ?_⟩
    · intro n hn
      have := hle n hn
      omega
    · intro n hn
      rcases List.mem_cons.mp hn with rfl | hn
      · exact Nat.le_refl _
      · have := hle n hn
        omega

end Library

end Phasor
