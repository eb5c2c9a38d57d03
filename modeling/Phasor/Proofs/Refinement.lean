import Phasor.Proofs.Evaluation

namespace Phasor

variable {p : Precision}

namespace Build

variable (p) in
def Reaches (scope : Scope) (settings : Settings) (parameter : String) (tokens : List Token) (token : Token) :
    Prop :=
  ∃ before after, tokens = before ++ token :: after ∧
    ∃ b : Builder p, Gives (before.forM (Build.token scope settings parameter)) {} ⟨⟩ b

variable {scope : Scope} {settings : Settings} {parameter : String} {tokens : List Token}

theorem exists_trees {b : Builder p} (h : Gives (tokens.forM (Build.token scope settings parameter)) {} ⟨⟩ b) :
    ∃ trees, Tree.pushAll scope p settings.extended parameter [] tokens = .ok trees ∧ Follows scope trees b := by
  rcases hp : Tree.pushAll scope p settings.extended parameter [] tokens with e | trees
  · obtain ⟨b', hf⟩ := tokens_fail (.initial scope) hp
    exact absurd hf h.not_fails
  · obtain ⟨b', hg, hfol, -⟩ := tokens_give (.initial scope) hp
    obtain ⟨-, rfl⟩ := h.unique hg
    exact ⟨trees, rfl, hfol⟩

theorem parse_of_reaches {token : Token} {e : Error} (h : Reaches p scope settings parameter tokens token)
    (he : ∀ trees, Tree.push scope p settings.extended parameter trees token = .error e) :
    Tree.parse scope p settings.extended parameter tokens = .error e := by
  obtain ⟨before, after, rfl, b, hg⟩ := h
  obtain ⟨trees, hp, -⟩ := exists_trees hg
  rw [List.append_cons]
  apply Tree.parse_of_prefix_error
  rw [Tree.pushAll_append, hp]
  simp [Except.bind, Tree.pushAll_cons, he]

theorem parse_of_reaches_conj (he : settings.extended = false)
    (h : Reaches p scope settings parameter tokens (.operator "conj")) :
    Tree.parse scope p settings.extended parameter tokens = .error (.unknownOperator "conj") :=
  parse_of_reaches h (fun trees => he ▸ Tree.push_conj trees)

theorem parse_of_not_reaches_conj (h : ¬ Reaches p scope settings parameter tokens (.operator "conj")) :
    Tree.parse scope p settings.extended parameter tokens = Tree.parse scope p true parameter tokens := by
  by_cases hc : Token.operator "conj" ∈ tokens
  · -- the first conjugation is not reached, so a token before it fails, in both vocabularies alike
    obtain ⟨before, after, rfl, hnot⟩ := List.eq_append_cons_of_mem hc
    have hsame : Tree.pushAll scope p settings.extended parameter [] before =
        Tree.pushAll scope p true parameter [] before := Tree.pushAll_of_not_mem_conj hnot []
    rcases hp : Tree.pushAll scope p settings.extended parameter [] before with e | trees
    · rw [Tree.parse_of_prefix_error hp, Tree.parse_of_prefix_error (hsame ▸ hp)]
    · obtain ⟨b, hg, -⟩ := tokens_give (.initial scope) hp
      exact absurd ⟨before, after, rfl, b, hg⟩ h
  · unfold Tree.parse
    rw [Tree.pushAll_of_not_mem_conj hc]

theorem stack_ne_nil {b : Builder p} (h : Gives (tokens.forM (Build.token scope settings parameter)) {} ⟨⟩ b)
    (hne : tokens ≠ []) : b.stack ≠ [] := by
  obtain ⟨trees, hp, hf⟩ := exists_trees h
  have ht := Tree.pushAll_ne_nil hp (.inr hne)
  intro hs
  apply ht
  apply List.length_eq_zero_iff.mp
  rw [← hf.depth, hs]
  rfl

end Build

theorem Eval.stack_ne_nil {lib : Library p} {scope : Scope} {m m' : Memory p} {parameter : String} {x : p.Value}
    {tokens : List Token} {stack : List p.Value} (h : lib.Ready scope m)
    (hg : Gives (tokens.foldlM (Eval.token scope lib.functions parameter x) []) m stack m') (hne : tokens ≠ []) :
    stack ≠ [] := by
  obtain ⟨meaning, hm⟩ := h.linked.exists_meaning
  obtain ⟨trees, hp, hst, -⟩ := exists_trees hm h hg
  have ht := Tree.pushAll_ne_nil hp (.inr hne)
  intro hs
  apply ht
  apply List.length_eq_zero_iff.mp
  rw [← hst.length_eq, hs]
  rfl

/-- Compilation and evaluation refuse the same lists of tokens with the same errors, whatever the
argument. Without the extended vocabulary compilation stops at the first conjugation that it comes
to. No list but the empty one leaves either of them with nothing on the stack. -/
theorem compilation_rejects_as_evaluation {lib : Library p} {scope : Scope} {m : Memory p}
    (h : lib.Ready scope m) (settings : Settings) (parameter : String) (x : p.Value) (tokens : List Token) :
    (settings.extended = true → ∀ e : Error,
      (Artifact.ofTokens scope settings parameter tokens : Except Error (Artifact p)) = .error e ↔
        (outcome (Eval.expression scope lib.functions parameter x tokens) m).1 = .error e) ∧
    (settings.extended = false → Build.Reaches p scope settings parameter tokens (.operator "conj") →
      (Artifact.ofTokens scope settings parameter tokens : Except Error (Artifact p)) =
        .error (.unknownOperator "conj")) ∧
    (settings.extended = false → ¬ Build.Reaches p scope settings parameter tokens (.operator "conj") →
      ∀ e : Error, (Artifact.ofTokens scope settings parameter tokens : Except Error (Artifact p)) = .error e ↔
        (outcome (Eval.expression scope lib.functions parameter x tokens) m).1 = .error e) ∧
    (tokens ≠ [] →
      (Artifact.ofTokens scope settings parameter tokens : Except Error (Artifact p)) ≠ .error .emptyExpression ∧
      (outcome (Eval.expression scope lib.functions parameter x tokens) m).1 ≠ .error (.unbalancedExpression 0) ∧
      (∀ b : Builder p, Gives (tokens.forM (Build.token scope settings parameter)) {} ⟨⟩ b → b.stack ≠ []) ∧
      ∀ stack m', Gives (tokens.foldlM (Eval.token scope lib.functions parameter x) []) m stack m' →
        stack ≠ []) := by
  refine ⟨?_, ?_, ?_, ?_⟩
  · intro he e
    rw [Artifact.ofTokens_eq_error, Eval.expression_eq_error h, he]
  · intro he hc
    rw [Artifact.ofTokens_eq_error]
    exact Build.parse_of_reaches_conj he hc
  · intro he hc e
    rw [Artifact.ofTokens_eq_error, Eval.expression_eq_error h, Build.parse_of_not_reaches_conj hc]
  · intro hne
    refine ⟨?_, ?_, ?_, ?_⟩
    · rw [ne_eq, Artifact.ofTokens_eq_error]
      exact Tree.parse_ne_emptyExpression hne
    · rw [ne_eq, Eval.expression_eq_error h]
      exact Tree.parse_ne_unbalanced_zero tokens
    · intro b hg
      exact Build.stack_ne_nil hg hne
    · intro stack m' hg
      exact Eval.stack_ne_nil h hg hne

theorem compilation_rejects_as_evaluation_square : ∃ (lib : Library .high) (m : Memory .high),
    lib.ids = [0] ∧ lib.Ready (.only "square" ⟨.high, 0⟩) m ∧
    (Artifact.ofTokens (.only "square" ⟨.high, 0⟩) { extended := true } "x"
      [.identifier "x", .call "square", .operator "/", .operator "conj"] : Except Error (Artifact .high)) =
        .error (.stackUnderflow "/") ∧
    (outcome (Eval.expression (.only "square" ⟨.high, 0⟩) lib.functions "x" (BigComplex.real 3)
      [.identifier "x", .call "square", .operator "/", .operator "conj"]) m).1 =
        .error (.stackUnderflow "/") := by
  obtain ⟨lib, m, hids, h⟩ := Library.exists_ready_square .high
  have hbuild : (Artifact.ofTokens (.only "square" ⟨.high, 0⟩) { extended := true } "x"
      [.identifier "x", .call "square", .operator "/", .operator "conj"] : Except Error (Artifact .high)) =
        .error (.stackUnderflow "/") := Artifact.ofTokens_eq_error.mpr rfl
  refine ⟨lib, m, hids, h, hbuild, ?_⟩
  exact ((compilation_rejects_as_evaluation h { extended := true } "x" (BigComplex.real 3) _).1 rfl _).mp hbuild

/-- Code that was built computes at every argument what evaluation of its tokens gives, over any
library of functions that were compiled before, and whatever its slots hold. -/
theorem code_computes_evaluated {lib : Library p} {scope : Scope} {m m' : Memory p} (h : lib.Ready scope m)
    (h' : m'.AtRest lib) {settings : Settings} {parameter : String} {tokens : List Token} {a : Artifact p}
    (hbuilt : Artifact.ofTokens scope settings parameter tokens = .ok a) {id : Nat} (fresh : id ∉ lib.ids)
    {r : Arena p.Value} (harena : m'.arenas.get? id = some r) (hrest : a.Rests r) (released : Bool)
    (x : p.Value) :
    ∃ z m₁ m₂, Machine.enter (⟨id, a.code, a.callees, released⟩ :: lib.functions) id x m' = some (z, m₁) ∧
      Gives (Eval.expression scope lib.functions parameter x tokens) m z m₂ := by
  let f : Member p := ⟨⟨id, a.code, a.callees, released⟩, scope, settings, parameter, tokens, a, hbuilt, rfl, rfl⟩
  obtain ⟨t, ht, hcalls⟩ := f.exists_tree
  have calls : ∀ k ∈ f.artifact.callees, k ∈ lib.ids := by
    intro k hk
    obtain ⟨name, hn⟩ := Tree.exists_name_of_mem_calls ((hcalls k).mp hk)
    exact h.resolves name k hn
  obtain ⟨meaning₀, hm₀⟩ := h.linked.exists_meaning
  obtain ⟨F, hm⟩ := hm₀.extend h.linked calls fresh
  have hlinked : Library.Linked (f :: lib) := .cons calls fresh h.linked
  have hr : m'.AtRest (f :: lib) := Memory.atRest_cons.mpr ⟨⟨r, harena, hrest⟩, h'⟩
  have hid : f.id ∈ Library.ids (f :: lib) := List.mem_cons_self
  obtain ⟨m₁, henter, -⟩ := hlinked.enter hm hid hr x
  obtain ⟨z, m₂, hg, hz, -⟩ := Eval.expression_gives (x := x) hm.tail h (Tree.parse_extended ht)
  have hmeans := hm f List.mem_cons_self t ht x
  obtain rfl := Option.some.inj (hz.symm.trans hmeans)
  exact ⟨_, m₁, m₂, henter, hg⟩

theorem code_computes_evaluated_twice : ∃ (lib : Library .high) (m : Memory .high) (a : Artifact .high) (z : BigComplex)
    (m₁ m₂ : Memory .high), lib.ids = [0] ∧
    Artifact.ofTokens (.only "square" ⟨.high, 0⟩) { extended := true } "x"
      [.identifier "x", .call "square", .identifier "x", .call "square", .operator "/"] = .ok a ∧
    Machine.enter (⟨1, a.code, a.callees, false⟩ :: lib.functions) 1 (BigComplex.real 3)
      { m with arenas := m.arenas.insert 1 a.arena } = some (z, m₁) ∧
    Gives (Eval.expression (.only "square" ⟨.high, 0⟩) lib.functions "x" (BigComplex.real 3)
      [.identifier "x", .call "square", .identifier "x", .call "square", .operator "/"]) m z m₂ := by
  obtain ⟨lib, m, hids, h⟩ := Library.exists_ready_square .high
  -- the first result is still to be used when the second call overwrites the slot that it lay in
  have hparse : Tree.parse (.only "square" ⟨.high, 0⟩) .high true "x"
      [.identifier "x", .call "square", .identifier "x", .call "square", .operator "/"] =
        .ok (.binary .div (.call "square" (.identifier "x")) (.call "square" (.identifier "x"))) := rfl
  obtain ⟨a, ha⟩ := Artifact.exists_ofTokens { extended := true } hparse
  have fresh : 1 ∉ lib.ids := by simp [hids]
  have hget (k : Nat) := Dictionary.get?_insert m.arenas 1 a.arena k
  have hrest : ({ m with arenas := m.arenas.insert 1 a.arena } : Memory .high).AtRest lib := by
    intro f hf
    obtain ⟨r, hr, hfr⟩ := h.rests f hf
    have hne : f.id ≠ 1 := fun he => fresh (Library.mem_ids.mpr ⟨f, hf, he⟩)
    exact ⟨r, by simp [hget, hne, hr], hfr⟩
  obtain ⟨z, m₁, m₂, henter, heval⟩ := code_computes_evaluated h hrest ha fresh (by simp [hget])
    a.rests_arena false (BigComplex.real 3)
  exact ⟨lib, m, a, z, m₁, m₂, hids, ha, henter, heval⟩

end Phasor
