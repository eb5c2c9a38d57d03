import Phasor.Evaluate
import Phasor.Proofs.Calling

namespace Phasor

variable {p : Precision}

structure Library.Ready (lib : Library p) (scope : Scope) (m : Memory p) : Prop where
  linked : lib.Linked
  rests : m.AtRest lib
  resolves : ∀ name id, scope.entry p name = .ok id → id ∈ lib.ids

theorem Library.Ready.with_memory {lib : Library p} {scope : Scope} {m m' : Memory p} (h : lib.Ready scope m)
    (hr : m'.AtRest lib) : lib.Ready scope m' :=
  ⟨h.linked, hr, h.resolves⟩

def Scope.only (name : String) (entry : EntryRef) : Scope :=
  ⟨fun _ => none, fun k => if k = name then some entry else none⟩

theorem Library.exists_ready_square (p : Precision) :
    ∃ (lib : Library p) (m : Memory p), lib.ids = [0] ∧ lib.Ready (.only "square" ⟨p, 0⟩) m := by
  have hparse : Tree.parse ⟨fun _ => none, fun _ => none⟩ p false "x"
      [.identifier "x", .identifier "x", .operator "*"] =
        .ok (.binary .mul (.identifier "x") (.identifier "x")) := rfl
  obtain ⟨a, ha⟩ := Artifact.exists_ofTokens {} hparse
  let f : Member p := ⟨⟨0, a.code, a.callees, false⟩, _, _, _, _, a, ha, rfl, rfl⟩
  obtain ⟨t, ht, hcalls⟩ := f.exists_tree
  have hnone : ∀ id ∈ f.artifact.callees, id ∈ Library.ids ([] : Library p) := by
    intro id hid
    obtain rfl := Except.ok.inj (Eq.trans (Eq.symm hparse) ht)
    simpa [Tree.calls] using (hcalls id).mp hid
  refine ⟨[f], ⟨p.zero, Dictionary.empty.insert 0 a.arena⟩, rfl, .cons hnone (by simp [Library.ids]) .nil, ?_, ?_⟩
  · intro g hg
    obtain rfl := List.mem_singleton.mp hg
    exact ⟨a.arena, rfl, a.rests_arena⟩
  · intro name id hid
    have he := Scope.entry_eq_ok.mp hid
    by_cases hn : name = "square"
    · simp only [Scope.only, hn, ↓reduceIte, Option.some.injEq, EntryRef.mk.injEq, true_and] at he
      subst he
      exact List.mem_cons_self
    · simp [Scope.only, hn] at he

namespace Eval

section Reading

variable {lib : Library p} {scope : Scope} {parameter : String} {meaning : Nat → p.Value → p.Value}
  {x : p.Value}

theorem gives_enter {m : Memory p} {id : Nat} (hm : lib.Means meaning) (h : lib.Ready scope m) (hid : id ∈ lib.ids)
    (z : p.Value) :
    ∃ m', Gives (Eval.enter lib.functions id z) m (meaning id z) m' ∧ lib.Ready scope m' := by
  obtain ⟨m', he, hr⟩ := h.linked.enter hm hid h.rests z
  refine ⟨m', ?_, h.with_memory hr⟩
  unfold Eval.enter
  rw [gives_get_bind, he]
  rfl

variable (scope parameter meaning x) in
def Evaluates (z : p.Value) (t : Tree) : Prop :=
  t.value? scope parameter (fun id z => some (meaning id z)) x = some z

theorem token_gives {m : Memory p} {stack : List p.Value} {trees trees' : List Tree} {token : Token}
    (hm : lib.Means meaning) (h : lib.Ready scope m)
    (hst : List.Forall₂ (Evaluates scope parameter meaning x) stack trees)
    (hp : Tree.push scope p true parameter trees token = .ok trees') :
    ∃ stack' m', Gives (Eval.token scope lib.functions parameter x stack token) m stack' m' ∧
      List.Forall₂ (Evaluates scope parameter meaning x) stack' trees' ∧ lib.Ready scope m' := by
  cases Tree.accepts_of_push hp with
  | @number _ text z hz =>
    refine ⟨p.value z :: stack, m, ?_, .cons ?_ hst, h⟩
    · exact (gives_lift.mpr ⟨hz, rfl⟩).bind (gives_pure.mpr ⟨rfl, rfl⟩)
    · simp [Evaluates, Tree.value?, hz, Except.toOption]
  | parameter =>
    refine ⟨x :: stack, m, ?_, .cons ?_ hst, h⟩
    · simp [Eval.token]
    · simp [Evaluates, Tree.value?]
  | @constant _ name z hn hz =>
    refine ⟨p.value z :: stack, m, ?_, .cons ?_ hst, h⟩
    · simp only [Eval.token, hn, ↓reduceIte]
      exact (gives_lift.mpr ⟨hz, rfl⟩).bind (gives_pure.mpr ⟨rfl, rfl⟩)
    · simp [Evaluates, Tree.value?, hn, hz, Except.toOption]
  | @unary rest t op symbol hop =>
    obtain ⟨z, left, hz, hrest, rfl⟩ := List.forall₂_cons_right_iff.mp hst
    refine ⟨p.unary op z :: left, m, ?_, .cons ?_ hrest, h⟩
    · simp [Eval.token, hop]
    · unfold Evaluates at *
      simp [Tree.value?, hz]
  | @binary rest l r op symbol hop =>
    obtain ⟨w, left, hw, hst₁, rfl⟩ := List.forall₂_cons_right_iff.mp hst
    obtain ⟨z, left, hz, hrest, rfl⟩ := List.forall₂_cons_right_iff.mp hst₁
    refine ⟨p.binary op z w :: left, m, ?_, .cons ?_ hrest, h⟩
    · simp [Eval.token, hop]
    · unfold Evaluates at *
      simp [Tree.value?, hz, hw]
  | @call rest t name id hid =>
    obtain ⟨z, left, hz, hrest, rfl⟩ := List.forall₂_cons_right_iff.mp hst
    obtain ⟨m', he, hm'⟩ := gives_enter hm h (h.resolves name id hid) z
    refine ⟨meaning id z :: left, m', ?_, .cons ?_ hrest, hm'⟩
    · exact (gives_lift.mpr ⟨hid, rfl⟩).bind (he.bind (gives_pure.mpr ⟨rfl, rfl⟩))
    · unfold Evaluates at *
      simp [Tree.value?, hid, hz, Except.toOption]

theorem token_fails {m : Memory p} {stack : List p.Value} {trees : List Tree} {token : Token} {e : Error}
    (hd : stack.length = trees.length)
    (hp : Tree.push scope p true parameter trees token = .error e) (functions : List Installed) :
    Fails (Eval.token scope functions parameter x stack token) m e m := by
  cases Tree.rejects_of_push hp with
  | number hz => exact (fails_lift hz m).bind _
  | constant hn hz =>
    simp only [Eval.token, hn, ↓reduceIte]
    exact (fails_lift hz m).bind _
  | operator hop =>
    simp only [Eval.token, hop]
    exact fails_throw _ m
  | unary hop =>
    obtain rfl := List.length_eq_zero_iff.mp hd
    simp only [Eval.token, hop]
    exact fails_throw _ m
  | binary hop hlt =>
    rw [← hd] at hlt
    rcases stack with _ | ⟨w, _ | ⟨z, left⟩⟩
    · simp only [Eval.token, hop]
      exact fails_throw _ m
    · simp only [Eval.token, hop]
      exact fails_throw _ m
    · simp only [List.length_cons] at hlt
      omega
  | entry hid => exact (fails_lift hid m).bind _
  | call hid =>
    obtain rfl := List.length_eq_zero_iff.mp hd
    exact (gives_lift.mpr ⟨hid, rfl⟩).bind_fails (fails_throw _ m)

theorem tokens_give {m : Memory p} {stack : List p.Value} {trees trees' : List Tree} {tokens : List Token}
    (hm : lib.Means meaning) (h : lib.Ready scope m)
    (hst : List.Forall₂ (Evaluates scope parameter meaning x) stack trees)
    (hp : Tree.pushAll scope p true parameter trees tokens = .ok trees') :
    ∃ stack' m', Gives (tokens.foldlM (Eval.token scope lib.functions parameter x) stack) m stack' m' ∧
      List.Forall₂ (Evaluates scope parameter meaning x) stack' trees' ∧ lib.Ready scope m' := by
  induction tokens generalizing stack trees m with
  | nil =>
    simp only [Tree.pushAll, List.foldlM_nil, pure, Except.pure, Except.ok.injEq] at hp
    subst hp
    exact ⟨stack, m, gives_pure.mpr ⟨rfl, rfl⟩, hst, h⟩
  | cons token tokens ih =>
    rw [Tree.pushAll_cons] at hp
    rcases hq : Tree.push scope p true parameter trees token with e | next
    · simp [hq, Except.bind] at hp
    · rw [hq] at hp
      obtain ⟨stack₁, m₁, hg₁, hst₁, h₁⟩ := token_gives hm h hst hq
      obtain ⟨stack₂, m₂, hg₂, hst₂, h₂⟩ := ih h₁ hst₁ hp
      rw [List.foldlM_cons]
      exact ⟨stack₂, m₂, hg₁.bind hg₂, hst₂, h₂⟩

theorem tokens_fail {m : Memory p} {stack : List p.Value} {trees : List Tree} {tokens : List Token} {e : Error}
    (hm : lib.Means meaning) (h : lib.Ready scope m)
    (hst : List.Forall₂ (Evaluates scope parameter meaning x) stack trees)
    (hp : Tree.pushAll scope p true parameter trees tokens = .error e) :
    ∃ m', Fails (tokens.foldlM (Eval.token scope lib.functions parameter x) stack) m e m' ∧
      lib.Ready scope m' := by
  induction tokens generalizing stack trees m with
  | nil => simp [Tree.pushAll, pure, Except.pure] at hp
  | cons token tokens ih =>
    rw [Tree.pushAll_cons] at hp
    rw [List.foldlM_cons]
    rcases hq : Tree.push scope p true parameter trees token with e' | next
    · simp only [hq, Except.bind, Except.error.injEq] at hp
      subst hp
      exact ⟨m, (token_fails hst.length_eq hq _).bind _, h⟩
    · rw [hq] at hp
      obtain ⟨stack₁, m₁, hg₁, hst₁, h₁⟩ := token_gives hm h hst hq
      obtain ⟨m₂, hf₂, h₂⟩ := ih h₁ hst₁ hp
      exact ⟨m₂, hg₁.bind_fails hf₂, h₂⟩

theorem exists_trees {m m' : Memory p} {tokens : List Token} {stack : List p.Value} (hm : lib.Means meaning)
    (h : lib.Ready scope m)
    (hg : Gives (tokens.foldlM (Eval.token scope lib.functions parameter x) []) m stack m') :
    ∃ trees, Tree.pushAll scope p true parameter [] tokens = .ok trees ∧
      List.Forall₂ (Evaluates scope parameter meaning x) stack trees ∧ lib.Ready scope m' := by
  rcases hp : Tree.pushAll scope p true parameter [] tokens with e | trees
  · obtain ⟨m₁, hf, -⟩ := tokens_fail (x := x) hm h .nil hp
    exact absurd hf hg.not_fails
  · obtain ⟨stack₁, m₁, hg₁, hst, h₁⟩ := tokens_give (x := x) hm h .nil hp
    obtain ⟨rfl, rfl⟩ := hg.unique hg₁
    exact ⟨trees, rfl, hst, h₁⟩

theorem expression_gives {m : Memory p} {tokens : List Token} {t : Tree} (hm : lib.Means meaning)
    (h : lib.Ready scope m) (hp : Tree.parse scope p true parameter tokens = .ok t) :
    ∃ z m', Gives (Eval.expression scope lib.functions parameter x tokens) m z m' ∧
      Evaluates scope parameter meaning x z t ∧ lib.Ready scope m' := by
  have hne : tokens.isEmpty = false := by
    have hf := (Tree.parse_eq_ok.mp hp).2
    rw [← hf]
    simpa using t.flatten_ne_nil
  obtain ⟨stack, m', hg, hst, h'⟩ := tokens_give (x := x) hm h .nil (Tree.pushAll_of_parse hp)
  obtain ⟨z, rest, hz, hrest, rfl⟩ := List.forall₂_cons_right_iff.mp hst
  obtain rfl := List.forall₂_nil_right_iff.mp hrest
  refine ⟨z, m', ?_, hz, h'⟩
  unfold Eval.expression
  simp only [hne, Bool.false_eq_true, ↓reduceIte]
  exact hg.bind (gives_pure.mpr ⟨rfl, rfl⟩)

theorem expression_fails {m : Memory p} {tokens : List Token} {e : Error} (hm : lib.Means meaning)
    (h : lib.Ready scope m) (hp : Tree.parse scope p true parameter tokens = .error e) :
    ∃ m', Fails (Eval.expression scope lib.functions parameter x tokens) m e m' ∧ lib.Ready scope m' := by
  unfold Tree.parse at hp
  unfold Eval.expression
  split at hp
  · rename_i hne
    obtain rfl := Except.error.inj hp
    simp only [hne, ↓reduceIte]
    exact ⟨m, (fails_throw _ _).bind _, h⟩
  · rename_i hne
    simp only [hne, Bool.false_eq_true, ↓reduceIte]
    split at hp
    · cases hp
    · rename_i trees hnot hs
      obtain rfl := Except.error.inj hp
      obtain ⟨stack, m', hg, hst, h'⟩ := tokens_give (x := x) hm h .nil hs
      refine ⟨m', hg.bind_fails ?_, h'⟩
      rw [← hst.length_eq]
      rcases stack with _ | ⟨z, _ | ⟨w, rest⟩⟩
      · exact fails_throw _ m'
      · obtain ⟨t, ts, -, hts, rfl⟩ := List.forall₂_cons_left_iff.mp hst
        obtain rfl := List.forall₂_nil_left_iff.mp hts
        exact absurd rfl (hnot t)
      · exact fails_throw _ m'
    · rename_i e' hs
      obtain rfl := Except.error.inj hp
      obtain ⟨m', hf, h'⟩ := tokens_fail (x := x) hm h .nil hs
      exact ⟨m', hf.bind _, h'⟩

theorem expression_eq_error {m : Memory p} (h : lib.Ready scope m) (parameter : String) (x : p.Value)
    (tokens : List Token) (e : Error) :
    (outcome (Eval.expression scope lib.functions parameter x tokens) m).1 = .error e ↔
      Tree.parse scope p true parameter tokens = .error e := by
  obtain ⟨meaning, hm⟩ := h.linked.exists_meaning
  rcases hp : Tree.parse scope p true parameter tokens with e' | t
  · obtain ⟨m', hf, -⟩ := expression_fails (x := x) hm h hp
    rw [show outcome _ m = _ from hf]
    simp
  · obtain ⟨z, m', hg, -⟩ := expression_gives (x := x) hm h hp
    rw [show outcome _ m = _ from hg]
    simp

theorem expression_eq_ok {m : Memory p} (hm : lib.Means meaning) (h : lib.Ready scope m) (parameter : String)
    (x : p.Value) (tokens : List Token) (z : p.Value) :
    (outcome (Eval.expression scope lib.functions parameter x tokens) m).1 = .ok z ↔
      ∃ t, Tree.parse scope p true parameter tokens = .ok t ∧ Evaluates scope parameter meaning x z t := by
  rcases hp : Tree.parse scope p true parameter tokens with e | t
  · obtain ⟨m', hf, -⟩ := expression_fails (x := x) hm h hp
    rw [show outcome _ m = _ from hf]
    simp
  · obtain ⟨w, m', hg, hw, -⟩ := expression_gives (x := x) hm h hp
    rw [show outcome _ m = _ from hg]
    constructor
    · intro hz
      obtain rfl := Except.ok.inj hz
      exact ⟨t, rfl, hw⟩
    · rintro ⟨u, hu, hz⟩
      obtain rfl := Except.ok.inj hu
      exact congrArg Except.ok (Option.some.inj (hw.symm.trans hz))

end Reading

end Eval

theorem Tree.exists_name_of_mem_calls {scope : Scope} {t : Tree} {id : Nat} (h : id ∈ t.calls scope p) :
    ∃ name, scope.entry p name = .ok id := by
  induction t with
  | number text => simp [calls] at h
  | identifier name => simp [calls] at h
  | unary op t ih => exact ih h
  | binary op l r ihl ihr =>
    rcases List.mem_append.mp h with h | h
    · exact ihl h
    · exact ihr h
  | call name t ih =>
    rcases List.mem_append.mp h with h | h
    · exact ih h
    · refine ⟨name, ?_⟩
      rcases he : scope.entry p name with e | id'
      · simp [he, Except.toOption] at h
      · simp only [he, Except.toOption, Option.toList_some, List.mem_singleton] at h
        rw [h]

theorem Library.Ready.calls_mem {lib : Library p} {scope : Scope} {m : Memory p} (hready : lib.Ready scope m)
    {settings : Settings} {parameter : String} {tokens : List Token} {a : Artifact p}
    (h : Artifact.ofTokens scope settings parameter tokens = .ok a) : ∀ id ∈ a.callees, id ∈ lib.ids := by
  intro id hid
  obtain ⟨t, _, _, _, -, -, -, -, hcalls, -⟩ := Artifact.ofTokens_eq_ok h
  obtain ⟨name, hname⟩ := Tree.exists_name_of_mem_calls ((hcalls id).mp hid)
  exact hready.resolves name id hname

theorem Library.Ready.value?_enter {lib : Library p} {scope : Scope} {m : Memory p}
    {meaning : Nat → p.Value → p.Value} (h : lib.Ready scope m) (hm : lib.Means meaning) (parameter : String)
    (x : p.Value) (t : Tree) :
    t.value? scope parameter (fun id z => (Machine.enter lib.functions id z m).map Prod.fst) x =
      t.value? scope parameter (fun id z => some (meaning id z)) x := by
  apply Tree.value?_congr
  intro id hid
  funext z
  obtain ⟨name, hn⟩ := Tree.exists_name_of_mem_calls hid
  obtain ⟨m', he, -⟩ := h.linked.enter hm (h.resolves name id hn) h.rests z
  rw [he]
  rfl

/-- Evaluation succeeds exactly on the flattened well-formed trees. A list of tokens flattens at
most one of them, and its value is that of the tree, where a call is what the code of the function
gives. -/
theorem evaluation_of_flattened_tree {lib : Library p} {scope : Scope} {m : Memory p} (h : lib.Ready scope m)
    (parameter : String) (x : p.Value) (tokens : List Token) :
    ((∃ z, (outcome (Eval.expression scope lib.functions parameter x tokens) m).1 = .ok z) ↔
      ∃ t : Tree, t.WellFormed scope p parameter ∧ t.flatten = tokens) ∧
    (∀ t u : Tree, t.WellFormed scope p parameter → u.WellFormed scope p parameter → t.flatten = tokens →
      u.flatten = tokens → t = u) ∧
    ∀ t : Tree, t.WellFormed scope p parameter → t.flatten = tokens →
      ∃ z, (outcome (Eval.expression scope lib.functions parameter x tokens) m).1 = .ok z ∧
        t.value? scope parameter (fun id z => (Machine.enter lib.functions id z m).map Prod.fst) x =
          some z := by
  obtain ⟨meaning, hm⟩ := h.linked.exists_meaning
  have hvalue (t : Tree) (hw : t.WellFormed scope p parameter) (hf : t.flatten = tokens) :
      ∃ z, (outcome (Eval.expression scope lib.functions parameter x tokens) m).1 = .ok z ∧
        Eval.Evaluates scope parameter meaning x z t := by
    have hp : Tree.parse scope p true parameter tokens = .ok t := Tree.parse_eq_ok.mpr ⟨hw, hf⟩
    obtain ⟨z, m', hg, hz, -⟩ := Eval.expression_gives (x := x) hm h hp
    exact ⟨z, (Eval.expression_eq_ok hm h parameter x tokens z).mpr ⟨t, hp, hz⟩, hz⟩
  refine ⟨?_, ?_, ?_⟩
  · constructor
    · rintro ⟨z, hz⟩
      obtain ⟨t, hp, -⟩ := (Eval.expression_eq_ok hm h parameter x tokens z).mp hz
      exact ⟨t, Tree.parse_eq_ok.mp hp⟩
    · rintro ⟨t, hw, hf⟩
      obtain ⟨z, hz, -⟩ := hvalue t hw hf
      exact ⟨z, hz⟩
  · intro t u ht hu hft hfu
    have hpt : Tree.parse scope p true parameter tokens = .ok t := Tree.parse_eq_ok.mpr ⟨ht, hft⟩
    have hpu : Tree.parse scope p true parameter tokens = .ok u := Tree.parse_eq_ok.mpr ⟨hu, hfu⟩
    exact Except.ok.inj (hpt.symm.trans hpu)
  · intro t hw hf
    obtain ⟨z, hz, he⟩ := hvalue t hw hf
    refine ⟨z, hz, ?_⟩
    rw [h.value?_enter hm]
    exact he

theorem evaluation_of_flattened_tree_square : ∃ (lib : Library .double) (m : Memory .double) (z : FloatComplex),
    lib.ids = [0] ∧ lib.Ready (.only "square" ⟨.double, 0⟩) m ∧
    (outcome (Eval.expression (.only "square" ⟨.double, 0⟩) lib.functions "x" (FloatComplex.real 3)
      [.identifier "x", .call "square", .identifier "x", .operator "-"]) m).1 = .ok z := by
  obtain ⟨lib, m, hids, h⟩ := Library.exists_ready_square .double
  let t : Tree := .binary .sub (.call "square" (.identifier "x")) (.identifier "x")
  have ht : t.WellFormed (.only "square" ⟨.double, 0⟩) .double "x" := by
    simp [t, Tree.WellFormed, Scope.only]
  obtain ⟨z, hz, -⟩ := (evaluation_of_flattened_tree h "x" (FloatComplex.real 3) _).2.2 t ht rfl
  exact ⟨lib, m, z, hids, h, hz⟩

end Phasor
