import Phasor.Proofs.Outcome
import Phasor.Proofs.Tree

namespace Phasor

variable {p : Precision}

theorem Routine.binary_mem_catalog (p : Precision) (op : BinaryOp) : binary op ∈ catalog p := by
  cases p <;> cases op <;> decide

theorem Routine.unary_mem_catalog (p : Precision) (op : UnaryOp) : unary op ∈ catalog p := by
  cases p <;> cases op <;> decide

theorem Registry.find?_standard {r : Routine} (h : r ∈ Routine.catalog p) :
    Registry.standard.find? (r.symbol p) = some ⟨r.symbol p, r.convention p, r⟩ := by
  have hall : (Routine.catalog p).map (fun r => Registry.standard.find? (r.symbol p)) =
      (Routine.catalog p).map (fun r => some ⟨r.symbol p, r.convention p, r⟩) := by
    cases p <;> rfl
  exact List.map_inj_left.mp hall r h

def Operand.Fits (p : Precision) : Operand → Prop
  | split _ _ => p = .double
  | pointer _ => True

namespace Builder

structure Sound (b : Builder p) : Prop where
  registry : b.registry = .standard
  imports : ∀ i ∈ b.code.imports, ∃ e, Registry.standard.find? i.symbol = some e ∧ e.target = i.routine
  stack : ∀ o ∈ b.stack, o.Fits p

theorem sound_empty : ({} : Builder p).Sound :=
  ⟨rfl, by simp, by simp⟩

structure Extends (b b' : Builder p) : Prop where
  imports : b.code.imports <+: b'.code.imports
  pinned : b.pinned <+: b'.pinned
  arenaSize : b.arenaSize ≤ b'.arenaSize
  callees : b.callees ⊆ b'.callees

theorem Extends.refl (b : Builder p) : b.Extends b :=
  ⟨List.prefix_refl _, List.prefix_refl _, Nat.le_refl _, List.Subset.refl _⟩

theorem Extends.trans {a b c : Builder p} (h : a.Extends b) (h' : b.Extends c) : a.Extends c :=
  ⟨h.imports.trans h'.imports, h.pinned.trans h'.pinned, Nat.le_trans h.arenaSize h'.arenaSize,
    List.Subset.trans h.callees h'.callees⟩

structure Continues (called : List Nat) (b b' : Builder p) : Prop extends Extends b b' where
  stack : b'.stack = b.stack
  finished : b'.finished = b.finished
  sound : b.Sound → b'.Sound
  called : ∀ id, id ∈ b'.callees ↔ id ∈ b.callees ∨ id ∈ called

theorem Continues.refl (b : Builder p) : b.Continues [] b :=
  ⟨Extends.refl b, rfl, rfl, id, by simp⟩

theorem Continues.trans {xs ys : List Nat} {a b c : Builder p} (h : a.Continues xs b)
    (h' : b.Continues ys c) : a.Continues (xs ++ ys) c :=
  ⟨h.toExtends.trans h'.toExtends, h'.stack.trans h.stack, h'.finished.trans h.finished,
    fun hs => h'.sound (h.sound hs), by simp [h.called, h'.called, or_assoc]⟩

theorem Continues.of_same {b b' : Builder p} (hr : b'.registry = b.registry)
    (hi : b'.code.imports = b.code.imports) (hs : b'.stack = b.stack) (hf : b'.finished = b.finished)
    (hc : b'.callees = b.callees) (hp : b.pinned <+: b'.pinned) (ha : b.arenaSize ≤ b'.arenaSize) :
    b.Continues [] b' :=
  ⟨⟨hi ▸ List.prefix_refl _, hp, ha, hc ▸ List.Subset.refl _⟩, hs, hf,
    fun h => ⟨hr.trans h.registry, hi ▸ h.imports, hs ▸ h.stack⟩, by simp [hc]⟩

end Builder

namespace Build

def Adds {α : Type} (called : List Nat) (x : Build p α) (Q : α → Prop) : Prop :=
  ∀ b : Builder p, b.Sound → ∃ a b', Gives x b a b' ∧ Q a ∧ b.Continues called b'

namespace Adds

variable {α β : Type} {xs ys : List Nat}

theorem pure {a : α} {Q : α → Prop} (h : Q a) : Adds [] (Pure.pure a : Build p α) Q :=
  fun b _ => ⟨a, b, gives_pure.mpr ⟨rfl, rfl⟩, h, .refl b⟩

theorem append {x : Build p α} {f : α → Build p β} {Q : α → Prop} {R : β → Prop} (hx : Adds xs x Q)
    (hf : ∀ a, Q a → Adds ys (f a) R) : Adds (xs ++ ys) (x >>= f) R := by
  intro b hb
  obtain ⟨a, b₁, h₁, hq, hc₁⟩ := hx b hb
  obtain ⟨c, b₂, h₂, hr, hc₂⟩ := hf a hq b₁ (hc₁.sound hb)
  exact ⟨c, b₂, h₁.bind h₂, hr, hc₁.trans hc₂⟩

theorem bind {x : Build p α} {f : α → Build p β} {Q : α → Prop} {R : β → Prop} (hx : Adds [] x Q)
    (hf : ∀ a, Q a → Adds xs (f a) R) : Adds xs (x >>= f) R :=
  hx.append hf

theorem bind_last {x : Build p α} {f : α → Build p β} {Q : α → Prop} {R : β → Prop} (hx : Adds xs x Q)
    (hf : ∀ a, Q a → Adds [] (f a) R) : Adds xs (x >>= f) R := by
  have h := hx.append hf
  rwa [List.append_nil] at h

theorem continues {x : Build p α} {Q : α → Prop} (h : Adds xs x Q) {b b' : Builder p} {a : α}
    (hb : b.Sound) (hg : Gives x b a b') : Q a ∧ b.Continues xs b' := by
  obtain ⟨a', b₁, hg', hq, hc⟩ := h b hb
  obtain ⟨rfl, rfl⟩ := hg.unique hg'
  exact ⟨hq, hc⟩

theorem get_bind {f : Builder p → Build p β} {R : β → Prop}
    (h : ∀ b : Builder p, b.Sound → ∃ a b', Gives (f b) b a b' ∧ R a ∧ b.Continues xs b') :
    Adds xs (get >>= f) R := by
  intro b hb
  obtain ⟨a, b', hg, hr, hc⟩ := h b hb
  exact ⟨a, b', Gives.bind (gives_get.mpr ⟨rfl, rfl⟩) hg, hr, hc⟩

theorem modify {f : Builder p → Builder p} (h : ∀ b : Builder p, b.Continues xs (f b)) :
    Adds xs (modify f : Build p PUnit) (fun _ => True) :=
  fun b _ => ⟨⟨⟩, f b, gives_modify.mpr rfl, trivial, h b⟩

theorem emit (i : Instr) : Adds [] (emit i : Build p Nat) (fun _ => True) :=
  fun _ _ => ⟨_, _, rfl, trivial, .of_same rfl rfl rfl rfl rfl (List.prefix_refl _) (Nat.le_refl _)⟩

theorem declareSignature (ts : List ValueType) :
    Adds [] (declareSignature ts : Build p Nat) (fun _ => True) :=
  fun _ _ => ⟨_, _, rfl, trivial, .of_same rfl rfl rfl rfl rfl (List.prefix_refl _) (Nat.le_refl _)⟩

theorem arena : Adds [] (arena : Build p Nat) (fun _ => True) := by
  refine get_bind (fun b hb => ?_)
  split
  · exact pure trivial b hb
  · refine (emit _).bind (fun v _ => (modify (fun b => ?_)).bind (fun _ _ => pure trivial)) b hb
    exact .of_same rfl rfl rfl rfl rfl (List.prefix_refl _) (Nat.le_refl _)

theorem importRoutine {r : Routine} (hr : r ∈ Routine.catalog p) :
    Adds [] (importRoutine r : Build p Nat) (fun _ => True) := by
  have hf := Registry.find?_standard hr
  refine get_bind (fun b hb => ?_)
  simp only [hb.registry, hf]
  split
  · exact pure trivial b hb
  · refine (declareSignature _).bind (fun s _ => (modify (fun b => ?_)).bind (fun _ _ => pure trivial)) b hb
    refine ⟨⟨List.prefix_append _ _, List.prefix_refl _, Nat.le_refl _, List.Subset.refl _⟩, rfl, rfl, ?_,
      by simp⟩
    intro hs
    refine ⟨hs.registry, ?_, hs.stack⟩
    intro i hi
    rcases List.mem_append.mp hi with hi | hi
    · exact hs.imports i hi
    · simp only [List.mem_singleton] at hi
      subst hi
      exact ⟨_, hf, rfl⟩

theorem callRoutine {r : Routine} (hr : r ∈ Routine.catalog p) (args : List Nat) :
    Adds [] (callRoutine r args : Build p Nat) (fun _ => True) := by
  refine (importRoutine hr).bind (fun f _ => arena.bind (fun a _ => (emit _).bind (fun v _ => ?_)))
  refine (modify (fun b => ?_)).bind (fun _ _ => pure trivial)
  exact .of_same rfl rfl rfl rfl rfl (List.prefix_refl _) (Nat.le_succ _)

theorem callEntry (id : Nat) (args : List Nat) :
    Adds [id] (callEntry id args : Build p Nat) (fun _ => True) := by
  refine (declareSignature _).bind (fun s _ => (emit _).bind (fun t _ => (emit _).bind (fun v _ => ?_)))
  refine (modify (fun b => ?_)).bind_last (fun _ _ => pure trivial)
  have hmem (k : Nat) : k ∈ (if id ∈ b.callees then b.callees else b.callees ++ [id]) ↔
      k ∈ b.callees ∨ k ∈ [id] := by
    by_cases h : id ∈ b.callees
    · simp only [h, ↓reduceIte, List.mem_singleton]
      exact ⟨.inl, fun hk => hk.elim (fun h => h) (fun he => he ▸ h)⟩
    · simp [h]
  exact ⟨⟨List.prefix_refl _, List.prefix_refl _, Nat.le_refl _, fun k hk => (hmem k).mpr (.inl hk)⟩, rfl, rfl,
    fun hs => ⟨hs.registry, hs.imports, hs.stack⟩, hmem⟩

theorem unwrap (o : Operand) : Adds [] (unwrap o : Build p (Nat × Nat)) (fun _ => True) := by
  cases o with
  | split re im => exact pure trivial
  | pointer v => exact (emit _).bind (fun _ _ => (emit _).bind (fun _ _ => pure trivial))

theorem address {o : Operand} (h : o.Fits .high) :
    Adds [] (address o : Build .high Nat) (fun _ => True) := by
  cases o with
  | split re im => cases h
  | pointer v => exact pure trivial

theorem constant (z : p.Literal) : Adds [] (constant p z) (Operand.Fits p) := by
  cases p with
  | double => exact (emit _).bind (fun _ _ => (emit _).bind (fun _ _ => pure rfl))
  | high =>
    refine get_bind (fun b hb => ?_)
    have hc : b.Continues [] { b with pinned := b.pinned ++ [z] } :=
      .of_same rfl rfl rfl rfl rfl (List.prefix_append _ _) (Nat.le_refl _)
    obtain ⟨v, b', hv, -, hc'⟩ := emit (.address (.pinned b.pinned.length)) _ (hc.sound hb)
    refine ⟨.pointer v, b', ?_, trivial, hc.trans hc'⟩
    exact Gives.bind ((gives_set (a := ⟨⟩)).mpr rfl) (hv.bind (gives_pure.mpr ⟨rfl, rfl⟩))

theorem binary (op : BinaryOp) {z w : Operand} (hz : z.Fits p) (hw : w.Fits p) :
    Adds [] (binary p op z w) (Operand.Fits p) := by
  cases p with
  | double =>
    refine (unwrap z).bind (fun (a, b) _ => (unwrap w).bind (fun (c, d) _ => ?_))
    have hr := callRoutine (Routine.binary_mem_catalog .double op) [a, b, c, d]
    cases op with
    | add | sub => exact (emit _).bind (fun _ _ => (emit _).bind (fun _ _ => pure rfl))
    | mul =>
      refine (emit _).bind (fun ac _ => (emit _).bind (fun bd _ => (emit _).bind (fun ad _ => ?_)))
      exact (emit _).bind (fun bc _ => (emit _).bind (fun _ _ => (emit _).bind (fun _ _ => pure rfl)))
    | div | pow => exact hr.bind (fun _ _ => pure trivial)
  | high =>
    refine (address hz).bind (fun a _ => (address hw).bind (fun b _ => ?_))
    exact (callRoutine (Routine.binary_mem_catalog .high op) [a, b]).bind (fun _ _ => pure trivial)

theorem unary (op : UnaryOp) {z : Operand} (hz : z.Fits p) : Adds [] (unary p op z) (Operand.Fits p) := by
  cases p with
  | double =>
    refine (unwrap z).bind (fun (a, b) _ => ?_)
    exact (callRoutine (Routine.unary_mem_catalog .double op) [a, b]).bind (fun _ _ => pure trivial)
  | high =>
    refine (address hz).bind (fun a _ => ?_)
    exact (callRoutine (Routine.unary_mem_catalog .high op) [a]).bind (fun _ _ => pure trivial)

theorem enter (id : Nat) {z : Operand} (hz : z.Fits p) : Adds [id] (enter p id z) (Operand.Fits p) := by
  cases p with
  | double =>
    refine (unwrap z).bind (fun (a, b) _ => (callEntry id [a, b]).bind_last (fun v _ => ?_))
    exact (unwrap (.pointer v)).bind (fun (c, d) _ => pure rfl)
  | high =>
    refine (address hz).bind (fun a _ => (callEntry id [a]).bind_last (fun v _ => ?_))
    exact (callRoutine (by decide) [v]).bind (fun _ _ => pure trivial)

theorem result {z : Operand} (hz : z.Fits p) : Adds [] (result p z) (fun _ => True) := by
  cases p with
  | double =>
    cases z with
    | split re im => exact callRoutine (by decide) [re, im]
    | pointer v => exact pure trivial
  | high => exact address hz

end Adds

theorem fits_parameter (p : Precision) : (Build.parameter p).Fits p := by
  cases p <;> simp [Build.parameter, Operand.Fits]

theorem gives_push (o : Operand) (b : Builder p) :
    Gives (push o) b ⟨⟩ { b with stack := o :: b.stack } := rfl

theorem gives_pop {b : Builder p} {o : Operand} {rest : List Operand} (h : b.stack = o :: rest)
    (name : String) : Gives (pop name) b o { b with stack := rest } := by
  refine (gives_get.mpr ⟨rfl, rfl⟩).bind ?_
  simp only [h]
  rfl

theorem fails_pop {b : Builder p} (h : b.stack = []) (name : String) :
    Fails (pop name) b (.stackUnderflow name) b := by
  refine (gives_get.mpr ⟨rfl, rfl⟩).bind_fails ?_
  simp only [h]
  exact fails_throw _ _

structure Follows (scope : Scope) (trees : List Tree) (b : Builder p) : Prop where
  sound : b.Sound
  depth : b.stack.length = trees.length
  callees : ∀ id, id ∈ b.callees ↔ ∃ t ∈ trees, id ∈ t.calls scope p
  unfinished : b.finished = false

theorem Follows.initial (scope : Scope) : Follows scope [] ({} : Builder p) :=
  ⟨Builder.sound_empty, rfl, by simp, rfl⟩

theorem Follows.top {scope : Scope} {b : Builder p} {t : Tree} {rest : List Tree}
    (h : Follows scope (t :: rest) b) :
    ∃ z left, b.stack = z :: left ∧ z.Fits p ∧ left.length = rest.length ∧ ∀ o ∈ left, o.Fits p := by
  have hd := h.depth
  have hf := h.sound.stack
  rcases hs : b.stack with _ | ⟨z, left⟩
  · simp [hs] at hd
  · rw [hs] at hd hf
    exact ⟨z, left, rfl, hf z (by simp), by simpa using hd, fun o ho => hf o (List.mem_cons_of_mem _ ho)⟩

theorem Follows.add {scope : Scope} {b : Builder p} (operands : List Tree) {rest : List Tree} {left : List Operand}
    {called : List Nat} {x : Build p Operand} (t : Tree) (hx : Adds called x (Operand.Fits p))
    (h : Follows scope (operands ++ rest) b) (hs : left <:+ b.stack) (hl : left.length = rest.length)
    (ht : ∀ id, id ∈ t.calls scope p ↔ id ∈ called ∨ ∃ u ∈ operands, id ∈ u.calls scope p) :
    ∃ b', Gives (x >>= push) { b with stack := left } ⟨⟩ b' ∧ Follows scope (t :: rest) b' ∧ b.Extends b' := by
  have hleft : ({ b with stack := left } : Builder p).Sound :=
    ⟨h.sound.registry, h.sound.imports, fun o ho => h.sound.stack o (hs.subset ho)⟩
  obtain ⟨o, b', hg, ho, hc⟩ := hx _ hleft
  have hb := hc.sound hleft
  have hstack : b'.stack = left := hc.stack
  have hcall : ∀ id, id ∈ b'.callees ↔ id ∈ b.callees ∨ id ∈ called := hc.called
  refine ⟨_, hg.bind (gives_push o b'), ⟨⟨hb.registry, hb.imports, ?_⟩, ?_, ?_, hc.finished.trans h.unfinished⟩,
    ⟨hc.imports, hc.pinned, hc.arenaSize, hc.toExtends.callees⟩⟩
  · intro o' ho'
    rcases List.mem_cons.mp ho' with rfl | ho'
    · exact ho
    · exact hb.stack o' ho'
  · simp [hstack, hl]
  · intro id
    simp only [hcall, h.callees, List.mem_append, List.mem_cons, or_and_right, exists_or, exists_eq_left, ht]
    rw [or_comm, ← or_assoc]

section Reading

variable {scope : Scope} {settings : Settings} {parameter : String}

theorem token_gives {trees trees' : List Tree} {token : Token} {b : Builder p} (h : Follows scope trees b)
    (hp : Tree.push scope p settings.extended parameter trees token = .ok trees') :
    ∃ b', Gives (Build.token scope settings parameter token) b ⟨⟩ b' ∧ Follows scope trees' b' ∧
      b.Extends b' := by
  cases Tree.accepts_of_push hp with
  | @number _ text z hz =>
    obtain ⟨b', hg, hf, he⟩ := Follows.add [] (.number text) (Adds.constant z) h
      (List.suffix_refl _) h.depth (by simp [Tree.calls])
    exact ⟨b', (gives_lift.mpr ⟨hz, rfl⟩).bind hg, hf, he⟩
  | parameter =>
    obtain ⟨b', hg, hf, he⟩ := Follows.add [] (.identifier parameter) (Adds.pure (fits_parameter p)) h
      (List.suffix_refl _) h.depth (by simp [Tree.calls])
    refine ⟨b', ?_, hf, he⟩
    rw [pure_bind] at hg
    simp only [Build.token, ↓reduceIte]
    exact hg
  | @constant _ name z hn hz =>
    obtain ⟨b', hg, hf, he⟩ := Follows.add [] (.identifier name) (Adds.constant z) h
      (List.suffix_refl _) h.depth (by simp [Tree.calls])
    refine ⟨b', ?_, hf, he⟩
    simp only [Build.token, hn, ↓reduceIte]
    exact (gives_lift.mpr ⟨hz, rfl⟩).bind hg
  | @unary rest t op symbol hop =>
    obtain ⟨z, left, hs, hz, hl, -⟩ := h.top
    obtain ⟨b', hg, hf, he⟩ := Follows.add [t] (.unary op t)
      (Adds.unary op hz) h (hs ▸ List.suffix_append [z] left) hl (by simp [Tree.calls])
    refine ⟨b', ?_, hf, he⟩
    simp only [Build.token, hop]
    exact (gives_pop hs _).bind hg
  | @binary rest l r op symbol hop =>
    obtain ⟨w, left, hs, hw, hl, hfit⟩ := h.top
    obtain ⟨z, left, rfl⟩ : ∃ z left', left = z :: left' :=
      List.exists_cons_of_length_pos (by simp [hl])
    have hsuffix : left <:+ b.stack := hs ▸ List.suffix_append [w, z] left
    obtain ⟨b', hg, hf, he⟩ := Follows.add [r, l] (.binary op l r)
      (Adds.binary op (hfit z (by simp)) hw) h hsuffix (by simpa using hl) (by simp [Tree.calls, or_comm])
    refine ⟨b', ?_, hf, he⟩
    simp only [Build.token, hop]
    exact (gives_pop hs _).bind ((gives_pop rfl _).bind hg)
  | @call rest t name id hid =>
    obtain ⟨z, left, hs, hfit, hl, -⟩ := h.top
    obtain ⟨b', hg, hf, he⟩ := Follows.add [t] (.call name t)
      (Adds.enter id hfit) h (hs ▸ List.suffix_append [z] left) hl
      (by simp [Tree.calls, hid, Except.toOption, or_comm])
    exact ⟨b', (gives_lift.mpr ⟨hid, rfl⟩).bind ((gives_pop hs _).bind hg), hf, he⟩

theorem token_fails {trees : List Tree} {token : Token} {b : Builder p} {e : Error}
    (h : Follows scope trees b)
    (hp : Tree.push scope p settings.extended parameter trees token = .error e) :
    ∃ b', Fails (Build.token scope settings parameter token) b e b' := by
  cases Tree.rejects_of_push hp with
  | number hz => exact ⟨b, (fails_lift hz b).bind _⟩
  | constant hn hz =>
    simp only [Build.token, hn, ↓reduceIte]
    exact ⟨b, (fails_lift hz b).bind _⟩
  | operator hop =>
    simp only [Build.token, hop]
    exact ⟨b, fails_throw _ b⟩
  | unary hop =>
    obtain rfl := Operator.symbol_of_ofSymbol? hop
    have hb : b.stack = [] := List.length_eq_zero_iff.mp h.depth
    simp only [Build.token, hop]
    exact ⟨b, (fails_pop hb _).bind _⟩
  | binary hop hlt =>
    obtain rfl := Operator.symbol_of_ofSymbol? hop
    simp only [Build.token, hop]
    rw [← h.depth] at hlt
    rcases hb : b.stack with _ | ⟨w, _ | ⟨z, left⟩⟩
    · exact ⟨b, (fails_pop hb _).bind _⟩
    · exact ⟨_, (gives_pop hb _).bind_fails ((fails_pop rfl _).bind _)⟩
    · simp only [hb, List.length_cons] at hlt
      omega
  | entry hid => exact ⟨b, (fails_lift hid b).bind _⟩
  | call hid =>
    have hs : b.stack = [] := List.length_eq_zero_iff.mp h.depth
    exact ⟨b, (gives_lift.mpr ⟨hid, rfl⟩).bind_fails ((fails_pop hs _).bind _)⟩

theorem tokens_give {trees trees' : List Tree} {tokens : List Token} {b : Builder p}
    (h : Follows scope trees b)
    (hp : Tree.pushAll scope p settings.extended parameter trees tokens = .ok trees') :
    ∃ b', Gives (tokens.forM (Build.token scope settings parameter)) b ⟨⟩ b' ∧ Follows scope trees' b' ∧
      b.Extends b' := by
  induction tokens generalizing trees b with
  | nil =>
    simp only [Tree.pushAll, List.foldlM_nil, pure, Except.pure, Except.ok.injEq] at hp
    subst hp
    exact ⟨b, gives_pure.mpr ⟨rfl, rfl⟩, h, .refl b⟩
  | cons token tokens ih =>
    rw [Tree.pushAll_cons] at hp
    rcases hq : Tree.push scope p settings.extended parameter trees token with e | next
    · simp [hq, Except.bind] at hp
    · rw [hq] at hp
      obtain ⟨b₁, hg₁, hf₁, he₁⟩ := token_gives h hq
      obtain ⟨b₂, hg₂, hf₂, he₂⟩ := ih hf₁ hp
      exact ⟨b₂, hg₁.bind hg₂, hf₂, he₁.trans he₂⟩

theorem tokens_fail {trees : List Tree} {tokens : List Token} {b : Builder p} {e : Error}
    (h : Follows scope trees b)
    (hp : Tree.pushAll scope p settings.extended parameter trees tokens = .error e) :
    ∃ b', Fails (tokens.forM (Build.token scope settings parameter)) b e b' := by
  induction tokens generalizing trees b with
  | nil => simp [Tree.pushAll, pure, Except.pure] at hp
  | cons token tokens ih =>
    rw [Tree.pushAll_cons] at hp
    rcases hq : Tree.push scope p settings.extended parameter trees token with e' | next
    · simp only [hq, Except.bind, Except.error.injEq] at hp
      obtain ⟨b', hb⟩ := token_fails h hq
      exact ⟨b', hp ▸ hb.bind _⟩
    · rw [hq] at hp
      obtain ⟨b₁, hg₁, hf₁, _⟩ := token_gives h hq
      obtain ⟨b', hb⟩ := ih hf₁ hp
      exact ⟨b', hg₁.bind_fails hb⟩

theorem gives_finish {b b' : Builder p} {n : Nat} :
    Gives finish b n b' ↔ ∃ z v b₁, b.stack = [z] ∧ Gives (result p z) b v b₁ ∧ n = b₁.arenaSize ∧
      b' = { b₁ with code.body := b₁.code.body ++ [.ret v], finished := true } := by
  unfold finish
  rw [gives_get_bind]
  rcases hs : b.stack with _ | ⟨z, _ | ⟨w, rest⟩⟩
  · simp
  · simp only [gives_bind, List.cons.injEq, and_true, exists_and_left, exists_eq_left']
    constructor
    · rintro ⟨v, b₁, hv, r, b₂, hr, _, b₃, hm, b₄, b₅, hg, hp⟩
      cases hr
      simp only [gives_modify, gives_get, gives_pure] at hm hg hp
      obtain ⟨rfl, rfl⟩ := hg
      obtain ⟨rfl, rfl⟩ := hp
      subst hm
      exact ⟨v, b₁, hv, rfl, rfl⟩
    · rintro ⟨v, b₁, hv, rfl, rfl⟩
      exact ⟨v, b₁, hv, _, _, rfl, ⟨⟩, _, rfl, _, _, rfl, rfl⟩
  · simp

theorem fails_finish {b : Builder p} (h : 1 < b.stack.length) :
    Fails finish b (.unbalancedExpression b.stack.length) b := by
  refine (gives_get.mpr ⟨rfl, rfl⟩).bind_fails ?_
  rcases hs : b.stack with _ | ⟨z, _ | ⟨w, rest⟩⟩
  · simp [hs] at h
  · simp [hs] at h
  · exact fails_throw _ _

theorem expression_gives {tokens : List Token} {t : Tree}
    (h : Tree.parse scope p settings.extended parameter tokens = .ok t) :
    ∃ (b₁ b₂ : Builder p) (n : Nat), Gives (tokens.forM (Build.token scope settings parameter)) {} ⟨⟩ b₁ ∧
      Gives finish b₁ n b₂ ∧ Gives (Build.expression scope settings parameter tokens) {} n b₂ ∧ Follows scope [t] b₁ ∧
      b₂.finished = true ∧ ∀ id, id ∈ b₂.callees ↔ id ∈ t.calls scope p := by
  unfold Tree.parse at h
  split at h
  · simp at h
  · rename_i hne
    split at h
    · rename_i u hs
      simp only [Except.ok.injEq] at h
      subst h
      obtain ⟨b₁, hg₁, hf₁, -⟩ := tokens_give (.initial scope) hs
      obtain ⟨z, left, hst, hz, hl, -⟩ := hf₁.top
      obtain rfl : left = [] := List.length_eq_zero_iff.mp hl
      obtain ⟨v, b₂, hg₂, -, hc₂⟩ := Adds.result hz b₁ hf₁.sound
      have hfin := gives_finish.mpr ⟨z, v, b₂, hst, hg₂, rfl, rfl⟩
      refine ⟨b₁, _, _, hg₁, hfin, ?_, hf₁, rfl, ?_⟩
      · unfold Build.expression
        simp only [hne, Bool.false_eq_true, ↓reduceIte]
        exact hg₁.bind hfin
      · intro id
        have hc := hc₂.called id
        simp only [List.not_mem_nil, or_false] at hc
        simp [hc, hf₁.callees]
    · simp at h
    · simp at h

theorem expression_fails {tokens : List Token} {e : Error}
    (h : Tree.parse scope p settings.extended parameter tokens = .error e) :
    ∃ b : Builder p, Fails (Build.expression scope settings parameter tokens) {} e b := by
  unfold Tree.parse at h
  unfold Build.expression
  split at h
  · rename_i hne
    simp only [Except.error.injEq] at h
    subst h
    simp only [hne, ↓reduceIte]
    exact ⟨{}, (fails_throw _ _).bind _⟩
  · rename_i hne
    simp only [hne, Bool.false_eq_true, ↓reduceIte]
    split at h
    · simp at h
    · rename_i trees hnot hs
      simp only [Except.error.injEq] at h
      subst h
      obtain ⟨b₁, hg₁, hf₁, -⟩ := tokens_give (.initial scope) hs
      have hlen : 1 < trees.length := by
        have hnil := Tree.pushAll_ne_nil hs (.inr (by simpa using hne))
        rcases trees with _ | ⟨t, _ | ⟨u, rest⟩⟩
        · exact absurd rfl hnil
        · exact absurd rfl (hnot t)
        · simp
      rw [← hf₁.depth] at hlen ⊢
      exact ⟨b₁, hg₁.bind_fails (fails_finish hlen)⟩
    · rename_i e' hs
      simp only [Except.error.injEq] at h
      subst h
      obtain ⟨b, hb⟩ := tokens_fail (.initial scope) hs
      exact ⟨b, hb.bind _⟩

end Reading

end Build

namespace Artifact

variable {scope : Scope} {settings : Settings} {parameter : String} {tokens : List Token}

theorem ofTokens_of_gives {b : Builder p} {n : Nat}
    (h : Gives (Build.expression scope settings parameter tokens) {} n b) (hf : b.finished = true) :
    ofTokens scope settings parameter tokens =
      .ok ⟨b.code, b.arenaSize, b.pinned, b.callees, b.capabilities⟩ := by
  change (match outcome (Build.expression scope settings parameter tokens) ({} : Builder p) with
    | (.ok _, b) => ofBuilder b
    | (.error e, _) => .error e) = _
  rw [h]
  simp [ofBuilder, hf]

theorem ofTokens_eq_error {e : Error} :
    (ofTokens scope settings parameter tokens : Except Error (Artifact p)) = .error e ↔
      Tree.parse scope p settings.extended parameter tokens = .error e := by
  rcases hp : Tree.parse scope p settings.extended parameter tokens with e' | t
  · obtain ⟨b, hb⟩ := Build.expression_fails hp
    have he : (ofTokens scope settings parameter tokens : Except Error (Artifact p)) = .error e' := by
      change (match outcome (Build.expression scope settings parameter tokens) ({} : Builder p) with
        | (.ok _, b) => ofBuilder b
        | (.error e, _) => .error e) = _
      rw [hb]
    simp [he]
  · obtain ⟨b₁, b₂, n, -, -, hg, -, hf, -⟩ := Build.expression_gives hp
    simp [ofTokens_of_gives hg hf]

theorem exists_ofTokens (settings : Settings) {t : Tree}
    (h : Tree.parse scope p settings.extended parameter tokens = .ok t) :
    ∃ a : Artifact p, ofTokens scope settings parameter tokens = .ok a := by
  obtain ⟨b₁, b₂, n, -, -, hg, -, hf, -⟩ := Build.expression_gives h
  exact ⟨_, ofTokens_of_gives hg hf⟩

theorem ofTokens_eq_ok {a : Artifact p} (h : ofTokens scope settings parameter tokens = .ok a) :
    ∃ (t : Tree) (b₁ b₂ : Builder p) (n : Nat),
      Tree.parse scope p settings.extended parameter tokens = .ok t ∧
      Gives (tokens.forM (Build.token scope settings parameter)) {} ⟨⟩ b₁ ∧ Gives Build.finish b₁ n b₂ ∧
      Build.Follows scope [t] b₁ ∧ (∀ id, id ∈ a.callees ↔ id ∈ t.calls scope p) ∧
      a = ⟨b₂.code, b₂.arenaSize, b₂.pinned, b₂.callees, b₂.capabilities⟩ := by
  rcases hp : Tree.parse scope p settings.extended parameter tokens with e | t
  · rw [ofTokens_eq_error.mpr hp] at h
    simp at h
  · obtain ⟨b₁, b₂, n, hg₁, hfin, hg, hfol, hf, hc⟩ := Build.expression_gives hp
    rw [ofTokens_of_gives hg hf, Except.ok.injEq] at h
    subst h
    exact ⟨t, b₁, b₂, n, rfl, hg₁, hfin, hfol, hc, rfl⟩

end Artifact

end Phasor
