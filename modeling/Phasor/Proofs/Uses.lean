import Mathlib.Algebra.Order.Ring.Nat
import Mathlib.Data.List.Forall2
import Phasor.Proofs.Slots

namespace Phasor

variable {p : Precision}

inductive Use where
  | arith (op : FloatOp)
  | routine (symbol : String)
  | entry
deriving DecidableEq

def Use.symbol? : Use → Option String
  | routine symbol => some symbol
  | _ => none

def Instr.isArith (op : FloatOp) : Instr → Bool
  | arith op' _ _ => op' = op
  | _ => false

/-- A call of a routine that is not imported shows as one without a name. -/
def Instr.use? (imports : List Import) : Instr → Option Use
  | arith op _ _ => some (.arith op)
  | call f _ => some (.routine ((imports[f]?.map Import.symbol).getD ""))
  | callEntry _ _ _ => some .entry
  | _ => none

namespace Code

def uses (code : Code) : List Use :=
  code.body.filterMap (Instr.use? code.imports)

def called (code : Code) : List String :=
  code.uses.filterMap Use.symbol?

end Code

def BinaryOp.uses : Precision → BinaryOp → List Use
  | .double, add => List.replicate 2 (.arith .add)
  | .double, sub => List.replicate 2 (.arith .sub)
  | .double, mul => List.replicate 4 (.arith .mul) ++ [.arith .sub, .arith .add]
  | p, op => [.routine ((Routine.binary op).symbol p)]

def Operator.uses (p : Precision) : Operator → List Use
  | binary op => op.uses p
  | unary op => [.routine ((Routine.unary op).symbol p)]

def Token.uses (p : Precision) : Token → List Use
  | number _ | identifier _ => []
  | operator symbol => ((Operator.ofSymbol? true symbol).map (Operator.uses p)).getD []
  | call _ => .entry :: match p with
    | .double => []
    | .high => [.routine (Routine.copy.symbol .high)]

theorem Token.uses_operator (p : Precision) (op : Operator) : (operator op.symbol).uses p = op.uses p := by
  simp [uses, Operator.ofSymbol?_symbol]

def Instr.UseExactly (imports : List Import) (added : List Instr) (us : List Use) : Prop :=
  ∀ imports', imports <+: imports' → added.filterMap (use? imports') = us

namespace Instr.UseExactly

variable {imports : List Import} {xs ys : List Instr} {us vs : List Use}

theorem mono {imports' : List Import} (h : UseExactly imports xs us) (hi : imports <+: imports') :
    UseExactly imports' xs us :=
  fun _ hi' => h _ (hi.trans hi')

theorem append (hx : UseExactly imports xs us) (hy : UseExactly imports ys vs) :
    UseExactly imports (xs ++ ys) (us ++ vs) := by
  intro imports' hi
  rw [List.filterMap_append, hx _ hi, hy _ hi]

theorem single {i : Instr} {u : Option Use} (h : ∀ imports, i.use? imports = u) :
    UseExactly imports [i] u.toList := by
  intro imports' _
  cases u <;> simp [h]

end Instr.UseExactly

namespace Builder

structure Declared (b : Builder p) : Prop where
  registry : b.registry = .standard
  stable : Instr.UseExactly b.code.imports b.code.body b.code.uses
  imports : b.code.imports.map Import.symbol = b.code.called.eraseDups
  routines : ∀ c, .routine c ∈ b.capabilities.members ↔
    ∃ s ∈ b.code.called, ∃ e, Registry.standard.find? s = some e ∧ e.convention = c
  entries : .entryCall ∈ b.capabilities.members ↔ .entry ∈ b.code.uses

theorem declared_empty : ({} : Builder p).Declared := by
  refine ⟨rfl, fun _ _ => rfl, rfl, ?_, ?_⟩ <;> simp [Code.called, Code.uses]

theorem Declared.mem_imports {b : Builder p} (h : b.Declared) {s : String} :
    s ∈ b.code.imports.map Import.symbol ↔ s ∈ b.code.called := by
  rw [h.imports, List.mem_eraseDups]

theorem Declared.extend {b b' : Builder p} (h : b.Declared) {added : List Instr} {us : List Use}
    (hr : b'.registry = b.registry) (hp : b.code.imports <+: b'.code.imports)
    (hbody : b'.code.body = b.code.body ++ added) (hu : Instr.UseExactly b'.code.imports added us)
    (himports : b'.code.imports.map Import.symbol = (b.code.called ++ us.filterMap Use.symbol?).eraseDups)
    (hroutines : ∀ c, .routine c ∈ b'.capabilities.members ↔ .routine c ∈ b.capabilities.members ∨
      ∃ s ∈ us.filterMap Use.symbol?, ∃ e, Registry.standard.find? s = some e ∧ e.convention = c)
    (hentries : .entryCall ∈ b'.capabilities.members ↔ .entryCall ∈ b.capabilities.members ∨ .entry ∈ us) :
    b'.Declared := by
  have huses : b'.code.uses = b.code.uses ++ us := by
    rw [Code.uses, hbody, List.filterMap_append, h.stable _ hp, hu _ (List.prefix_refl _)]
  have hcalled : b'.code.called = b.code.called ++ us.filterMap Use.symbol? := by
    rw [Code.called, huses, List.filterMap_append]
    rfl
  refine ⟨hr.trans h.registry, ?_, ?_, ?_, ?_⟩
  · rw [huses, hbody]
    exact (h.stable.mono hp).append hu
  · rw [hcalled, himports]
  · intro c
    rw [hroutines, h.routines, hcalled]
    simp only [List.mem_append, or_and_right, exists_or]
  · rw [hentries, h.entries, huses, List.mem_append]

theorem Declared.of_same {b b' : Builder p} (h : b.Declared) (hr : b'.registry = b.registry)
    (hi : b'.code.imports = b.code.imports) (hb : b'.code.body = b.code.body)
    (hc : b'.capabilities = b.capabilities) : b'.Declared := by
  have hnothing : Instr.UseExactly b'.code.imports [] [] := fun _ _ => rfl
  refine h.extend hr (hi ▸ List.prefix_refl _) ?_ hnothing ?_ ?_ ?_
  · simp [hb]
  · simp [hi, h.imports]
  · simp [hc]
  · simp [hc]

end Builder

namespace Build

def Yields {α : Type} (us : List Use) (x : Build p α) : Prop :=
  ∀ b a b', b.Declared → Gives x b a b' → b'.Declared ∧ b.code.imports <+: b'.code.imports ∧
    ∃ added, b'.code.body = b.code.body ++ added ∧ Instr.UseExactly b'.code.imports added us

namespace Yields

variable {α β : Type} {us vs : List Use}

theorem of_same {x : Build p α} (h : ∀ b a b', Gives x b a b' → b'.registry = b.registry ∧
    b'.code.imports = b.code.imports ∧ b'.code.body = b.code.body ∧ b'.capabilities = b.capabilities) :
    Yields [] x := by
  intro b a b' hb hg
  obtain ⟨hr, hi, hbody, hc⟩ := h b a b' hg
  exact ⟨hb.of_same hr hi hbody hc, hi ▸ List.prefix_refl _, [], by simp [hbody], fun _ _ => rfl⟩

theorem pure (a : α) : Yields [] (Pure.pure a : Build p α) := by
  apply of_same
  intro b a' b' hg
  obtain ⟨-, rfl⟩ := gives_pure.mp hg
  exact ⟨rfl, rfl, rfl, rfl⟩

theorem throw (e : Error) : Yields us (throw e : Build p α) :=
  fun _ _ _ _ hg => absurd hg gives_throw

theorem append {x : Build p α} {f : α → Build p β} (hx : Yields us x) (hf : ∀ a, Yields vs (f a)) :
    Yields (us ++ vs) (x >>= f) := by
  intro b c b₂ hb hg
  obtain ⟨a, b₁, hga, hgc⟩ := gives_bind.mp hg
  obtain ⟨h₁, hi₁, xs, hbody₁, hu₁⟩ := hx b a b₁ hb hga
  obtain ⟨h₂, hi₂, ys, hbody₂, hu₂⟩ := hf a b₁ c b₂ h₁ hgc
  refine ⟨h₂, hi₁.trans hi₂, xs ++ ys, ?_, (hu₁.mono hi₂).append hu₂⟩
  rw [hbody₂, hbody₁, List.append_assoc]

theorem bind {x : Build p α} {f : α → Build p β} (hx : Yields [] x) (hf : ∀ a, Yields us (f a)) :
    Yields us (x >>= f) :=
  hx.append hf

theorem bind_last {x : Build p α} {f : α → Build p β} (hx : Yields us x) (hf : ∀ a, Yields [] (f a)) :
    Yields us (x >>= f) := by
  have h := hx.append hf
  rwa [List.append_nil] at h

theorem lift {x : Except Error α} : Yields [] (liftM x : Build p α) := by
  apply of_same
  intro b a b' hg
  obtain ⟨-, rfl⟩ := gives_lift.mp hg
  exact ⟨rfl, rfl, rfl, rfl⟩

theorem get_bind {f : Builder p → Build p β} (h : ∀ b, Yields us (f b)) : Yields us (get >>= f) :=
  fun b c b' hb hg => h b b c b' hb (gives_get_bind.mp hg)

theorem modify_bind {g : Builder p → Builder p} {f : PUnit → Build p β} (h : ∀ b : Builder p,
    (g b).registry = b.registry ∧ (g b).code.imports = b.code.imports ∧ (g b).code.body = b.code.body ∧
      (g b).capabilities = b.capabilities) (hf : Yields us (f ⟨⟩)) : Yields us (modify g >>= f) := by
  refine bind (of_same ?_) (fun _ => hf)
  intro b a b' hg
  obtain rfl := gives_modify.mp hg
  exact h b

theorem emit {i : Instr} {u : Option Use} (hi : ∀ imports, i.use? imports = u) (hu : ∀ v ∈ u, ∃ op, v = .arith op) :
    Yields u.toList (emit i : Build p Nat) := by
  intro b v b' hb hg
  cases hg
  have hadded : Instr.UseExactly b.code.imports [i] u.toList := .single hi
  have hsymbols : u.toList.filterMap Use.symbol? = [] := by
    cases u with
    | none => rfl
    | some v =>
      obtain ⟨op, rfl⟩ := hu v rfl
      rfl
  have hentry : .entry ∉ u.toList := by
    intro hmem
    obtain ⟨op, hop⟩ := hu _ (Option.mem_toList.mp hmem)
    cases hop
  refine ⟨hb.extend rfl (List.prefix_refl _) rfl hadded ?_ ?_ ?_, List.prefix_refl _, [i], rfl, hadded⟩
  · simp [hsymbols, hb.imports]
  · simp [hsymbols]
  · simp [hentry]

theorem move {i : Instr} (hi : ∀ imports, i.use? imports = none) : Yields [] (Build.emit i : Build p Nat) :=
  emit hi (by simp)

theorem arith (op : FloatOp) (x y : Nat) : Yields [.arith op] (arith op x y : Build p Nat) :=
  emit (u := some (.arith op)) (fun _ => rfl) (by simp)

theorem gives_arena {b b' : Builder p} {v : Nat} (hg : Gives (arena : Build p Nat) b v b') :
    b'.registry = b.registry ∧ b'.code.imports = b.code.imports ∧ b'.capabilities = b.capabilities ∧
      ∃ added, b'.code.body = b.code.body ++ added ∧ ∀ imports, Instr.UseExactly imports added [] := by
  have hg := gives_get_bind.mp hg
  split at hg
  · obtain ⟨-, rfl⟩ := gives_pure.mp hg
    exact ⟨rfl, rfl, rfl, [], by simp, fun _ _ _ => rfl⟩
  · cases hg
    exact ⟨rfl, rfl, rfl, [.address .arena], rfl, fun _ _ _ => rfl⟩

theorem gives_importRoutine {r : Routine} (hr : r ∈ Routine.catalog p) {b b' : Builder p} {f : Nat} (hb : b.Declared)
    (hg : Gives (importRoutine r) b f b') :
    b'.registry = b.registry ∧ b'.code.body = b.code.body ∧
      (∃ i, b'.code.imports[f]? = some i ∧ i.symbol = r.symbol p) ∧ b.code.imports <+: b'.code.imports ∧
      b'.code.imports.map Import.symbol = (b.code.called ++ [r.symbol p]).eraseDups ∧
      (∀ c, .routine c ∈ b'.capabilities.members ↔ .routine c ∈ b.capabilities.members ∨ c = r.convention p) ∧
      (.entryCall ∈ b'.capabilities.members ↔ .entryCall ∈ b.capabilities.members) := by
  have hfind := Registry.find?_standard hr
  have hg := gives_get_bind.mp hg
  simp only [hb.registry, hfind] at hg
  rw [eraseDups_concat]
  split at hg
  · rename_i k hk
    obtain ⟨rfl, rfl⟩ := gives_pure.mp hg
    obtain ⟨hlt, hsymbol, -⟩ := List.findIdx?_eq_some_iff_getElem.mp hk
    have hsymbol : b'.code.imports[f].symbol = r.symbol p := of_decide_eq_true hsymbol
    have hmem : r.symbol p ∈ b'.code.called :=
      hb.mem_imports.mp (List.mem_map.mpr ⟨_, List.getElem_mem hlt, hsymbol⟩)
    refine ⟨rfl, rfl, ⟨_, List.getElem?_eq_getElem hlt, hsymbol⟩, List.prefix_refl _, ?_, ?_, Iff.rfl⟩
    · rw [if_pos hmem, hb.imports]
    · intro c
      have hc : c = r.convention p → .routine c ∈ b'.capabilities.members := by
        rintro rfl
        exact (hb.routines _).mpr ⟨_, hmem, _, hfind, rfl⟩
      exact ⟨.inl, fun h => h.elim (fun h => h) hc⟩
  · rename_i hnone
    cases hg
    have hmem : r.symbol p ∉ b.code.called := by
      rw [← hb.mem_imports, List.mem_map]
      rintro ⟨i, hi, hsymbol⟩
      have hne := List.findIdx?_eq_none_iff.mp hnone i hi
      simp [hsymbol] at hne
    refine ⟨rfl, rfl, ⟨_, List.getElem?_concat_length, rfl⟩, List.prefix_append _ _, ?_, ?_, ?_⟩
    · rw [if_neg hmem, List.map_append, hb.imports]
      rfl
    · intro c
      simp [Capabilities.insert, List.mem_insert_iff, or_comm]
    · simp [Capabilities.insert, List.mem_insert_iff]

theorem callRoutine {r : Routine} (hr : r ∈ Routine.catalog p) (args : List Nat) :
    Yields [.routine (r.symbol p)] (callRoutine r args : Build p Nat) := by
  intro b v b' hb hg
  obtain ⟨f, b₁, hg₁, hg⟩ := gives_bind.mp hg
  obtain ⟨a, b₂, hg₂, hg⟩ := gives_bind.mp hg
  obtain ⟨hr₁, hbody₁, ⟨i, hi, hsymbol⟩, hp₁, himports, hroutines, hentries⟩ := gives_importRoutine hr hb hg₁
  obtain ⟨hr₂, hi₂, hc₂, loads, hbody₂, hloads⟩ := gives_arena hg₂
  cases hg
  have hadded : Instr.UseExactly b₂.code.imports (loads ++ [.call f (args ++ [a])]) [.routine (r.symbol p)] := by
    refine (hloads _).append (fun imports' hp => ?_)
    rw [hi₂] at hp
    simp [Instr.use?, getElem?_some_mono hp hi, hsymbol]
  have hp₂ : b.code.imports <+: b₂.code.imports := hi₂ ▸ hp₁
  have hbody : b₂.code.body ++ [.call f (args ++ [a])] = b.code.body ++ (loads ++ [.call f (args ++ [a])]) := by
    rw [hbody₂, hbody₁, List.append_assoc]
  rw [← hi₂] at himports
  rw [← hc₂] at hroutines hentries
  refine ⟨hb.extend (hr₂.trans hr₁) hp₂ hbody hadded himports ?_ ?_, hp₂, _, hbody, hadded⟩
  · intro c
    rw [hroutines]
    simp [Use.symbol?, Registry.find?_standard hr, eq_comm]
  · simp [hentries]

theorem callEntry (id : Nat) (args : List Nat) : Yields [.entry] (callEntry id args : Build p Nat) := by
  intro b v b' hb hg
  cases hg
  have hadded : Instr.UseExactly b.code.imports [.address (.entry id),
    .callEntry b.code.signatures.length (p.parameters.length + b.code.body.length) args] [.entry] := fun _ _ => rfl
  have hsymbols : [Use.entry].filterMap Use.symbol? = [] := rfl
  refine ⟨hb.extend rfl (List.prefix_refl _) (List.append_assoc _ _ _) hadded ?_ ?_ ?_, List.prefix_refl _, _,
    List.append_assoc _ _ _, hadded⟩
  · rw [hsymbols, List.append_nil]
    exact hb.imports
  · simp [hsymbols, Capabilities.insert, List.mem_insert_iff]
  · simp [Capabilities.insert, List.mem_insert_iff]

theorem unwrap (o : Operand) : Yields [] (unwrap o : Build p (Nat × Nat)) := by
  cases o with
  | split re im => exact pure _
  | pointer v => exact (move (fun _ => rfl)).bind (fun _ => (move (fun _ => rfl)).bind (fun _ => pure _))

theorem address (o : Operand) : Yields [] (address o : Build p Nat) := by
  cases o with
  | split re im => exact throw _
  | pointer v => exact pure _

theorem push (o : Operand) : Yields [] (push o : Build p Unit) := by
  apply of_same
  intro b a b' hg
  cases hg
  exact ⟨rfl, rfl, rfl, rfl⟩

theorem pop (name : String) : Yields [] (pop name : Build p Operand) := by
  refine get_bind (fun b => ?_)
  split
  · exact throw _
  · exact modify_bind (fun _ => ⟨rfl, rfl, rfl, rfl⟩) (pure _)

theorem constant (z : p.Literal) : Yields [] (constant p z) := by
  cases p with
  | double => exact (move (fun _ => rfl)).bind (fun _ => (move (fun _ => rfl)).bind (fun _ => pure _))
  | high =>
    intro b o b' hb hg
    cases hg
    have hpin : ({ b with pinned := b.pinned ++ [z] } : Builder .high).Declared := hb.of_same rfl rfl rfl rfl
    have hmove := move (p := .high) (i := .address (.pinned b.pinned.length)) (fun _ => rfl) _ _ _ hpin rfl
    exact hmove

theorem partwise (op : FloatOp) (x y u v : Nat) :
    Yields [.arith op, .arith op]
      (do return Operand.split (← Build.arith op x u) (← Build.arith op y v) : Build p Operand) :=
  (arith op x u).append (fun _ => (arith op y v).bind_last (fun _ => pure _))

theorem binary (op : BinaryOp) (z w : Operand) : Yields (op.uses p) (binary p op z w) := by
  cases p with
  | double =>
    refine (unwrap z).bind (fun (a, b) => (unwrap w).bind (fun (c, d) => ?_))
    have hr := callRoutine (Routine.binary_mem_catalog .double op) [a, b, c, d]
    cases op with
    | add => exact partwise .add a b c d
    | sub => exact partwise .sub a b c d
    | mul =>
      refine (arith .mul a c).append (fun ac => (arith .mul b d).append (fun bd => ?_))
      refine (arith .mul a d).append (fun ad => (arith .mul b c).append (fun bc => ?_))
      exact (arith .sub ac bd).append (fun _ => (arith .add ad bc).bind_last (fun _ => pure _))
    | div | pow => exact hr.bind_last (fun _ => pure _)
  | high =>
    have hr (a b : Nat) := callRoutine (Routine.binary_mem_catalog .high op) [a, b]
    have huses : op.uses .high = [.routine ((Routine.binary op).symbol .high)] := by cases op <;> rfl
    rw [huses]
    exact (address z).bind (fun a => (address w).bind (fun b => (hr a b).bind_last (fun _ => pure _)))

theorem unary (op : UnaryOp) (z : Operand) :
    Yields [.routine ((Routine.unary op).symbol p)] (unary p op z) := by
  cases p with
  | double =>
    refine (unwrap z).bind (fun (a, b) => ?_)
    exact (callRoutine (Routine.unary_mem_catalog .double op) [a, b]).bind_last (fun _ => pure _)
  | high =>
    refine (address z).bind (fun a => ?_)
    exact (callRoutine (Routine.unary_mem_catalog .high op) [a]).bind_last (fun _ => pure _)

theorem enter (id : Nat) (z : Operand) (name : String) : Yields ((Token.call name).uses p) (enter p id z) := by
  cases p with
  | double =>
    refine (unwrap z).bind (fun (a, b) => (callEntry id [a, b]).bind_last (fun v => ?_))
    exact (unwrap (.pointer v)).bind (fun _ => pure _)
  | high =>
    refine (address z).bind (fun a => (callEntry id [a]).append (fun v => ?_))
    exact (callRoutine (by decide) [v]).bind_last (fun _ => pure _)

theorem result (z : Operand) : Yields
    (if p = .double ∧ z.isPointer = false then [.routine (Routine.wrap.symbol .double)] else []) (result p z) := by
  cases p with
  | double =>
    cases z with
    | split re im => exact callRoutine (by decide) [re, im]
    | pointer v => exact pure _
  | high => exact address z

section Reading

variable {scope : Scope} {settings : Settings} {parameter : String}

theorem token (t : Token) : Yields (t.uses p) (Build.token scope settings parameter t : Build p Unit) := by
  cases t with
  | number text => exact lift.bind (fun z => (constant z).bind push)
  | identifier name =>
    simp only [Build.token]
    split
    · exact push _
    · exact lift.bind (fun z => (constant z).bind push)
  | operator symbol =>
    simp only [Build.token]
    split
    · rename_i op hop
      obtain rfl := Operator.symbol_of_ofSymbol? hop
      rw [Token.uses_operator]
      cases op with
      | binary op => exact (pop _).bind (fun w => (pop _).bind (fun z => (binary op z w).bind_last push))
      | unary op => exact (pop _).bind (fun z => (unary op z).bind_last push)
    · exact throw _
  | call name => exact lift.bind (fun id => (pop name).bind (fun z => (enter id z name).bind_last push))

theorem tokens (ts : List Token) {b b' : Builder p} (hb : b.Declared)
    (hg : Gives (ts.forM (Build.token scope settings parameter)) b ⟨⟩ b') :
    b'.Declared ∧ b.code.imports <+: b'.code.imports ∧ ∃ blocks, b'.code.body = b.code.body ++ blocks.flatten ∧
      List.Forall₂ (fun t block => Instr.UseExactly b'.code.imports block (t.uses p)) ts blocks := by
  induction ts generalizing b with
  | nil =>
    obtain ⟨-, rfl⟩ := gives_pure.mp hg
    exact ⟨hb, List.prefix_refl _, [], by simp, .nil⟩
  | cons t ts ih =>
    obtain ⟨_, b₁, hg₁, hg₂⟩ := gives_bind.mp hg
    obtain ⟨h₁, hp₁, block, hbody₁, hblock⟩ := token t _ _ _ hb hg₁
    obtain ⟨h₂, hp₂, blocks, hbody₂, hblocks⟩ := ih h₁ hg₂
    refine ⟨h₂, hp₁.trans hp₂, block :: blocks, ?_, .cons (hblock.mono hp₂) hblocks⟩
    rw [hbody₂, hbody₁, List.append_assoc, List.flatten_cons]

end Reading

end Yields

end Build

theorem Instr.uses_flatten {imports : List Import} {tokens : List Token} {blocks : List (List Instr)}
    (h : List.Forall₂ (fun t block => block.filterMap (use? imports) = t.uses p) tokens blocks) :
    blocks.flatten.filterMap (use? imports) = tokens.flatMap (Token.uses p) := by
  induction h with
  | nil => rfl
  | cons ht _ ih => rw [List.flatten_cons, List.filterMap_append, ih, ht, List.flatMap_cons]

namespace Artifact

variable {scope : Scope} {settings : Settings} {parameter : String} {tokens : List Token}

/-- What follows the code of the tokens: a result that is held as two floats is stored by a routine.
-/
def closingUses (p : Precision) (tokens : List Token) : List Use :=
  if p = .double ∧ tokens.getLast?.any (Token.claims .double) = false then [.routine (Routine.wrap.symbol .double)]
  else []

theorem blocks_ofTokens {a : Artifact p} (h : ofTokens scope settings parameter tokens = .ok a) :
    ∃ blocks closing v, a.code.body = blocks.flatten ++ closing ++ [.ret v] ∧
      List.Forall₂ (fun t block => block.filterMap (Instr.use? a.code.imports) = t.uses p) tokens blocks ∧
      closing.filterMap (Instr.use? a.code.imports) = closingUses p tokens := by
  obtain ⟨t, b₁, b₂, n, -, htokens, hfinish, -, -, rfl⟩ := ofTokens_eq_ok h
  obtain ⟨z, v, b₃, hstack, hresult, -, rfl⟩ := Build.gives_finish.mp hfinish
  obtain ⟨h₁, -, blocks, hbody₁, hblocks⟩ := Build.Yields.tokens tokens Builder.declared_empty htokens
  obtain ⟨h₃, hp₃, closing, hbody₃, hclosing⟩ := Build.Yields.result z _ _ _ h₁ hresult
  refine ⟨blocks, closing, v, ?_, hblocks.imp fun _ _ hblock => hblock _ hp₃, ?_⟩
  · simp [hbody₃, hbody₁]
  · rw [hclosing _ (List.prefix_refl _), closingUses]
    cases p with
    | double => simp [isPointer_of_tokens htokens hstack rfl]
    | high => simp

theorem uses_ofTokens {a : Artifact p} (h : ofTokens scope settings parameter tokens = .ok a) :
    a.code.uses = tokens.flatMap (Token.uses p) ++ closingUses p tokens := by
  obtain ⟨blocks, closing, v, hbody, hblocks, hclosing⟩ := blocks_ofTokens h
  have hret : [Instr.ret v].filterMap (Instr.use? a.code.imports) = [] := rfl
  rw [Code.uses, hbody, List.filterMap_append, List.filterMap_append, Instr.uses_flatten hblocks, hclosing, hret,
    List.append_nil]

theorem declared_ofTokens {a : Artifact p} (h : ofTokens scope settings parameter tokens = .ok a) :
    ∃ b : Builder p, b.Declared ∧ b.code = a.code ∧ b.capabilities = a.capabilities := by
  obtain ⟨t, b₁, b₂, n, -, htokens, hfinish, -, -, rfl⟩ := ofTokens_eq_ok h
  obtain ⟨z, v, b₃, -, hresult, -, rfl⟩ := Build.gives_finish.mp hfinish
  obtain ⟨h₁, -⟩ := Build.Yields.tokens tokens Builder.declared_empty htokens
  obtain ⟨h₃, -⟩ := Build.Yields.result z _ _ _ h₁ hresult
  obtain ⟨h₄, -⟩ := Build.Yields.move (i := .ret v) (fun _ => rfl) _ _ _ h₃ rfl
  exact ⟨_, h₄, rfl, rfl⟩

end Artifact

theorem Code.mem_called {code : Code} {s : String} : s ∈ code.called ↔
    ∃ f args, .call f args ∈ code.body ∧ (code.imports[f]?.map Import.symbol).getD "" = s := by
  simp only [called, uses, List.mem_filterMap]
  constructor
  · rintro ⟨u, ⟨i, hi, hu⟩, hs⟩
    cases i with
    | call f args =>
      obtain rfl := Option.some.inj hu
      exact ⟨f, args, hi, Option.some.inj hs⟩
    | arith op x y =>
      obtain rfl := Option.some.inj hu
      cases hs
    | callEntry signature target args =>
      obtain rfl := Option.some.inj hu
      cases hs
    | _ => cases hu
  · rintro ⟨f, args, hi, rfl⟩
    exact ⟨_, ⟨_, hi, rfl⟩, rfl⟩

theorem Code.countP_isArith (code : Code) (op : FloatOp) :
    code.body.countP (Instr.isArith op) = code.uses.count (.arith op) := by
  rw [uses, List.count_filterMap]
  apply List.countP_congr
  intro i _
  cases i <;> simp [Instr.isArith, Instr.use?]

theorem Instr.countP_isCall (imports : List Import) (block : List Instr) :
    block.countP isCall = ((block.filterMap (use? imports)).filterMap Use.symbol?).length := by
  rw [List.filterMap_filterMap, List.length_filterMap_eq_countP]
  apply List.countP_congr
  intro i _
  cases i <;> simp [isCall, use?, Use.symbol?]

theorem Token.entry_mem_uses (p : Precision) (t : Token) : .entry ∈ t.uses p ↔ t.kind = .call := by
  cases t with
  | number text => simp [uses, kind]
  | identifier name => simp [uses, kind]
  | operator symbol =>
    rcases hop : Operator.ofSymbol? true symbol with _ | (op | op)
    · simp [uses, kind, hop]
    · cases p <;> cases op <;> simp [uses, kind, hop, Operator.uses, BinaryOp.uses]
    · simp [uses, kind, hop, Operator.uses]
  | call name => simp [uses, kind]

theorem Token.count_arith (op : FloatOp) (t : Token) : (t.uses .double).count (.arith op) = (BinaryOp.all.map
    (fun o => (o.uses .double).count (.arith op) * if t == .operator o.symbol then 1 else 0)).sum := by
  cases t with
  | number text => simp [uses, BinaryOp.all]
  | identifier name => simp [uses, BinaryOp.all]
  | operator symbol =>
    rcases hop : Operator.ofSymbol? true symbol with _ | o
    · have hne (o : BinaryOp) : symbol ≠ o.symbol := by
        rintro rfl
        cases hop.symm.trans (Operator.ofSymbol?_symbol (.binary o))
      simp [uses, hop, hne, BinaryOp.all]
    · obtain rfl := Operator.symbol_of_ofSymbol? hop
      rw [uses_operator]
      rcases o with o | o
      · cases o <;> simp [BinaryOp.all, Operator.symbol, Operator.uses, BinaryOp.symbol]
      · cases o <;> simp [BinaryOp.all, Operator.symbol, Operator.uses, BinaryOp.symbol, UnaryOp.symbol]
  | call name => simp [uses, BinaryOp.all]

theorem Token.count_arith_flatMap (op : FloatOp) (tokens : List Token) :
    (tokens.flatMap (uses .double)).count (.arith op) = (BinaryOp.all.map
      (fun o => (o.uses .double).count (.arith op) * tokens.count (.operator o.symbol))).sum := by
  induction tokens with
  | nil => simp [BinaryOp.all]
  | cons t tokens ih =>
    rw [List.flatMap_cons, List.count_append, ih, count_arith]
    simp only [BinaryOp.all, List.map_cons, List.map_nil, List.sum_cons, List.sum_nil, List.count_cons, Nat.mul_add]
    omega

namespace Artifact

variable {scope : Scope} {settings : Settings} {parameter : String} {tokens : List Token}

theorem closingUses_subset (p : Precision) (tokens : List Token) :
    ∀ u ∈ closingUses p tokens, u = .routine (Routine.wrap.symbol .double) := by
  unfold closingUses
  split <;> simp

theorem contains_routine_iff {a : Artifact p} (h : ofTokens scope settings parameter tokens = .ok a) (c : Convention) :
    a.capabilities.contains (.routine c) = true ↔ ∃ f args i e, .call f args ∈ a.code.body ∧
      a.code.imports[f]? = some i ∧ Registry.standard.find? i.symbol = some e ∧ e.convention = c := by
  obtain ⟨b, hb, hcode, hcap⟩ := declared_ofTokens h
  have hc := hb.routines c
  rw [hcode, hcap] at hc
  unfold Capabilities.contains
  rw [decide_eq_true_iff, hc]
  constructor
  · rintro ⟨s, hs, e, he, rfl⟩
    obtain ⟨f, args, hcall, rfl⟩ := Code.mem_called.mp hs
    rcases hi : a.code.imports[f]? with _ | i
    · have hnone : Registry.standard.find? "" = none := rfl
      simp [hi, hnone] at he
    · exact ⟨f, args, i, e, hcall, hi, by simpa [hi] using he, rfl⟩
  · rintro ⟨f, args, i, e, hcall, hi, he, rfl⟩
    exact ⟨i.symbol, Code.mem_called.mpr ⟨f, args, hcall, by simp [hi]⟩, e, he, rfl⟩

theorem contains_entryCall_iff {a : Artifact p} (h : ofTokens scope settings parameter tokens = .ok a) :
    a.capabilities.contains .entryCall = true ↔ ∃ t ∈ tokens, t.kind = .call := by
  obtain ⟨b, hb, hcode, hcap⟩ := declared_ofTokens h
  have he := hb.entries
  have hclosing : .entry ∉ closingUses p tokens := by
    intro hmem
    cases closingUses_subset p tokens _ hmem
  rw [hcode, hcap, uses_ofTokens h] at he
  unfold Capabilities.contains
  simp [he, hclosing, List.mem_flatMap, Token.entry_mem_uses]

theorem countP_isArith_double {a : Artifact .double} (h : ofTokens scope settings parameter tokens = .ok a)
    (op : FloatOp) : a.code.body.countP (Instr.isArith op) = (BinaryOp.all.map
      (fun o => (o.uses .double).count (.arith op) * tokens.count (.operator o.symbol))).sum := by
  have hclosing : (closingUses .double tokens).count (.arith op) = 0 := by
    rw [List.count_eq_zero]
    intro hmem
    cases closingUses_subset .double tokens _ hmem
  rw [Code.countP_isArith, uses_ofTokens h, List.count_append, hclosing, Token.count_arith_flatMap]
  rfl

def importText (symbols : List String) : String :=
  if symbols.isEmpty then "none" else " ".intercalate symbols

end Artifact

/-- A function declares what its code uses and nothing else. Its header lists the routines that the
code calls, in the order of their first calls; it has a capability for a kind of routine exactly if
it calls one, and for entries exactly if its tokens call a function. The code consists of one block
for each token, with the uses of that token, and of what stores the result. At double precision only
quotients and powers among the binary operators call a routine, and the others are computed by
additions, subtractions and multiplications of floats. -/
theorem declarations_follow_use {scope : Scope} {settings : Settings} {parameter : String} {tokens : List Token}
    {a : Artifact p} (h : Artifact.ofTokens scope settings parameter tokens = .ok a) :
    a.code.imports.map Import.symbol = a.code.called.eraseDups ∧
    (∀ name key, a.header name key parameter =
      s!"; {p.name} precision function {key} ({name}) of {parameter}\n"
        ++ s!"; arena: {a.arenaSize} slots, {a.pinned.length} pinned\n"
        ++ s!"; imports: {Artifact.importText a.code.called.eraseDups}\n"
        ++ s!"; capabilities: {a.capabilities.toText}\n") ∧
    (∀ c, a.capabilities.contains (.routine c) = true ↔ ∃ f args i e, .call f args ∈ a.code.body ∧
      a.code.imports[f]? = some i ∧ Registry.standard.find? i.symbol = some e ∧ e.convention = c) ∧
    (a.capabilities.contains .entryCall = true ↔ ∃ t ∈ tokens, t.kind = .call) ∧
    (∃ blocks closing v, a.code.body = blocks.flatten ++ closing ++ [.ret v] ∧
      List.Forall₂ (fun t block => block.filterMap (Instr.use? a.code.imports) = t.uses p) tokens blocks ∧
      closing.filterMap (Instr.use? a.code.imports) = Artifact.closingUses p tokens ∧
      (p = .double → List.Forall₂ (fun t block => ∀ op : BinaryOp, t = .operator op.symbol →
        block.countP Instr.isCall = if op = .div ∨ op = .pow then 1 else 0) tokens blocks)) ∧
    (p = .double →
      a.code.body.countP (Instr.isArith .mul) = 4 * tokens.count (.operator "*") ∧
      a.code.body.countP (Instr.isArith .add) = 2 * tokens.count (.operator "+") + tokens.count (.operator "*") ∧
      a.code.body.countP (Instr.isArith .sub) = 2 * tokens.count (.operator "-") + tokens.count (.operator "*")) := by
  have himports : a.code.imports.map Import.symbol = a.code.called.eraseDups := by
    obtain ⟨b, hb, hcode, -⟩ := Artifact.declared_ofTokens h
    exact hcode ▸ hb.imports
  refine ⟨himports, ?_, Artifact.contains_routine_iff h, Artifact.contains_entryCall_iff h, ?_, ?_⟩
  · intro name key
    rw [← himports]
    rfl
  · obtain ⟨blocks, closing, v, hbody, hblocks, hclosing⟩ := Artifact.blocks_ofTokens h
    refine ⟨blocks, closing, v, hbody, hblocks, hclosing, ?_⟩
    rintro rfl
    refine hblocks.imp ?_
    rintro _ block hblock op rfl
    rw [Instr.countP_isCall a.code.imports, hblock]
    cases op <;> rfl
  · rintro rfl
    simp [Artifact.countP_isArith_double h, BinaryOp.all, BinaryOp.uses, BinaryOp.symbol]

theorem declarations_follow_use_quotient : ∃ a : Artifact .double,
    Artifact.ofTokens ⟨fun _ => none, fun _ => some ⟨.double, 0⟩⟩ {} "x"
      [.identifier "x", .identifier "x", .operator "*", .identifier "x", .call "square", .operator "/"] = .ok a ∧
    a.capabilities.contains .entryCall = true ∧ a.code.body.countP (Instr.isArith .mul) = 4 := by
  have hparse : Tree.parse ⟨fun _ => none, fun _ => some ⟨.double, 0⟩⟩ .double false "x"
      [.identifier "x", .identifier "x", .operator "*", .identifier "x", .call "square", .operator "/"] =
        .ok (.binary .div (.binary .mul (.identifier "x") (.identifier "x")) (.call "square" (.identifier "x"))) := rfl
  obtain ⟨a, ha⟩ := Artifact.exists_ofTokens {} hparse
  obtain ⟨-, -, -, hentry, -, hcount⟩ := declarations_follow_use ha
  exact ⟨a, ha, hentry.mpr ⟨.call "square", by simp, rfl⟩, (hcount rfl).1⟩

end Phasor
