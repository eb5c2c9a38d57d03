import Mathlib.Data.List.Forall2
import Phasor.Proofs.Slots

namespace Phasor

variable {p : Precision}

def Instr.result? : Instr → Option ValueType
  | address _ | call _ _ | callEntry _ _ _ => some .address
  | const _ | arith _ _ _ | load _ _ => some .float
  | ret _ => none

def Instr.definitions : (next : Nat) → List Instr → List (Nat × ValueType)
  | _, [] => []
  | next, i :: rest =>
    match i.result? with
    | some t => (next, t) :: definitions (next + 1) rest
    | none => definitions next rest

namespace Instr

theorem definitions_append (next : Nat) (xs ys : List Instr) :
    definitions next (xs ++ ys) =
      definitions next xs ++ definitions (next + (xs.filterMap result?).length) ys := by
  induction xs generalizing next with
  | nil => rfl
  | cons i xs ih =>
    rw [List.cons_append, definitions, definitions]
    cases hi : i.result? with
    | none => simp [ih, hi]
    | some t =>
      have hnext : next + 1 + (xs.filterMap result?).length = next + ((xs.filterMap result?).length + 1) := by omega
      simp [ih, hi, hnext]

theorem map_fst_definitions (next : Nat) (body : List Instr) :
    (definitions next body).map Prod.fst = List.range' next (body.filterMap result?).length := by
  induction body generalizing next with
  | nil => rfl
  | cons i body ih =>
    rw [definitions]
    cases hi : i.result? with
    | none => simp [ih, hi]
    | some t => simp [ih, hi, List.range'_succ]

end Instr

namespace Precision

def values (p : Precision) (before : List Instr) : List (Nat × ValueType) :=
  p.parameters.zipIdx.map Prod.swap ++ Instr.definitions p.parameters.length before

def HasType (p : Precision) (before : List Instr) (v : Nat) (t : ValueType) : Prop :=
  (v, t) ∈ p.values before

theorem nodup_values (p : Precision) (body : List Instr) : ((p.values body).map Prod.fst).Nodup := by
  have hparams : (p.parameters.zipIdx.map Prod.swap).map Prod.fst = List.range' 0 p.parameters.length := by
    cases p <;> rfl
  have hrange := List.range'_append_1 (s := 0) (m := p.parameters.length)
    (n := (body.filterMap Instr.result?).length)
  rw [Nat.zero_add] at hrange
  unfold values
  rw [List.map_append, hparams, Instr.map_fst_definitions, hrange]
  exact List.nodup_range'

theorem HasType.mono {before after : List Instr} {v : Nat} {t : ValueType} (h : p.HasType before v t)
    (hp : before <+: after) : p.HasType after v t := by
  obtain ⟨added, rfl⟩ := hp
  unfold HasType values at *
  rw [Instr.definitions_append, ← List.append_assoc]
  exact List.mem_append_left _ h

theorem hasType_concat {before : List Instr} (hb : ∀ i ∈ before, i.result?.isSome) {i : Instr} {t : ValueType}
    (hi : i.result? = some t) : p.HasType (before ++ [i]) (p.parameters.length + before.length) t := by
  have hlen : (before.filterMap Instr.result?).length = before.length := List.filterMap_length_eq_length.mpr hb
  unfold HasType values
  rw [Instr.definitions_append, hlen]
  simp [Instr.definitions, hi]

end Precision

/-- An instruction that uses the values defined `before` it as what they are. A routine takes what
its entry in the registry says, under the signature that was declared for it, and a compiled
function takes the parameters of its precision. -/
inductive Instr.WellTyped (p : Precision) (code : Code) (before : List Instr) : Instr → Prop
  | address (a : Address) : WellTyped p code before (.address a)
  | const (bits : UInt64) : WellTyped p code before (.const bits)
  | arith {a b : Nat} (op : FloatOp) (ha : p.HasType before a .float) (hb : p.HasType before b .float) :
      WellTyped p code before (.arith op a b)
  | load {base : Nat} (part : Part) (h : p.HasType before base .address) : WellTyped p code before (.load part base)
  | call {f slot : Nat} {i : Import} {e : RegistryEntry Routine} {args : List Nat} (hi : code.imports[f]? = some i)
      (hslot : Registry.standard.slot? i.symbol = some slot) (he : Registry.standard.get? slot = some e)
      (hr : e.target = i.routine) (hs : code.signatures[i.signature]? = some e.convention.parameters)
      (hargs : List.Forall₂ (p.HasType before) args e.convention.parameters) : WellTyped p code before (.call f args)
  | callEntry {signature target : Nat} {args : List Nat} (hs : code.signatures[signature]? = some p.parameters)
      (ht : p.HasType before target .address) (hargs : List.Forall₂ (p.HasType before) args p.parameters) :
      WellTyped p code before (.callEntry signature target args)

theorem Instr.WellTyped.result {code : Code} {before : List Instr} {i : Instr} (h : i.WellTyped p code before) :
    i.result?.isSome := by
  cases h <;> rfl

namespace Code

structure Extends (c c' : Code) : Prop where
  signatures : c.signatures <+: c'.signatures
  imports : c.imports <+: c'.imports
  body : c.body <+: c'.body

theorem Extends.refl (c : Code) : c.Extends c :=
  ⟨List.prefix_refl _, List.prefix_refl _, List.prefix_refl _⟩

theorem Extends.trans {c c' c'' : Code} (h : c.Extends c') (h' : c'.Extends c'') : c.Extends c'' :=
  ⟨h.signatures.trans h'.signatures, h.imports.trans h'.imports, h.body.trans h'.body⟩

end Code

theorem Instr.WellTyped.mono {code code' : Code} {before : List Instr} {i : Instr} (h : i.WellTyped p code before)
    (he : code.Extends code') : i.WellTyped p code' before := by
  cases h with
  | address a => exact .address a
  | const bits => exact .const bits
  | arith op ha hb => exact .arith op ha hb
  | load part hbase => exact .load part hbase
  | call hf hslot hentry hr hsig hargs =>
    exact .call (getElem?_some_mono he.imports hf) hslot hentry hr (getElem?_some_mono he.signatures hsig) hargs
  | callEntry hsig ht hargs => exact .callEntry (getElem?_some_mono he.signatures hsig) ht hargs

def Operand.Typed (p : Precision) (before : List Instr) : Operand → Prop
  | split re im => p.HasType before re .float ∧ p.HasType before im .float
  | pointer v => p.HasType before v .address

theorem Operand.Typed.mono {before after : List Instr} {o : Operand} (h : o.Typed p before) (hp : before <+: after) :
    o.Typed p after := by
  cases o with
  | split re im => exact ⟨h.1.mono hp, h.2.mono hp⟩
  | pointer v => exact Precision.HasType.mono h hp

namespace Builder

structure Typed (b : Builder p) : Prop where
  registry : b.registry = .standard
  imports : ∀ i ∈ b.code.imports, ∃ e, Registry.standard.find? i.symbol = some e ∧ e.target = i.routine ∧
    b.code.signatures[i.signature]? = some e.convention.parameters
  body : ∀ before i, before ++ [i] <+: b.code.body → i.WellTyped p b.code before
  arenaValue : ∀ v, b.arenaValue = some v → p.HasType b.code.body v .address
  stack : ∀ o ∈ b.stack, o.Typed p b.code.body

theorem typed_empty : ({} : Builder p).Typed := by
  refine ⟨rfl, by simp, ?_, by simp, by simp⟩
  intro before i h
  simp [List.prefix_nil] at h

theorem Typed.result {b : Builder p} (h : b.Typed) : ∀ i ∈ b.code.body, i.result?.isSome := by
  intro i hi
  obtain ⟨before, after, hbody⟩ := List.append_of_mem hi
  exact (h.body before i ⟨after, by simp [hbody]⟩).result

theorem Typed.emit {b : Builder p} (h : b.Typed) {i : Instr} (hi : i.WellTyped p b.code b.code.body) :
    ({ b with code.body := b.code.body ++ [i] } : Builder p).Typed := by
  have hp : b.code.body <+: b.code.body ++ [i] := List.prefix_append _ _
  have hext : b.code.Extends { b.code with body := b.code.body ++ [i] } :=
    ⟨List.prefix_refl _, List.prefix_refl _, hp⟩
  refine ⟨h.registry, h.imports, ?_, fun v hv => (h.arenaValue v hv).mono hp, fun o ho => (h.stack o ho).mono hp⟩
  intro before j hj
  rcases List.prefix_concat_iff.mp hj with heq | hj
  · obtain ⟨rfl, hlast⟩ := List.append_inj' heq rfl
    obtain rfl := List.singleton_inj.mp hlast
    exact hi.mono hext
  · exact (h.body before j hj).mono hext

theorem Typed.declareSignature {b : Builder p} (h : b.Typed) (ts : List ValueType) :
    ({ b with code.signatures := b.code.signatures ++ [ts] } : Builder p).Typed := by
  have hp : b.code.signatures <+: b.code.signatures ++ [ts] := List.prefix_append _ _
  refine ⟨h.registry, ?_, ?_, h.arenaValue, h.stack⟩
  · intro i hi
    obtain ⟨e, he, hr, hs⟩ := h.imports i hi
    exact ⟨e, he, hr, getElem?_some_mono hp hs⟩
  · intro before i hi
    exact (h.body before i hi).mono ⟨hp, List.prefix_refl _, List.prefix_refl _⟩

theorem Typed.declareImport {b : Builder p} (h : b.Typed) {i : Import} {e : RegistryEntry Routine}
    (he : Registry.standard.find? i.symbol = some e) (hr : e.target = i.routine)
    (hs : b.code.signatures[i.signature]? = some e.convention.parameters) (capabilities : Capabilities) :
    ({ b with code.imports := b.code.imports ++ [i], capabilities := capabilities } : Builder p).Typed := by
  refine ⟨h.registry, ?_, ?_, h.arenaValue, h.stack⟩
  · intro j hj
    rcases List.mem_append.mp hj with hj | hj
    · exact h.imports j hj
    · obtain rfl := List.mem_singleton.mp hj
      exact ⟨e, he, hr, hs⟩
  · intro before j hj
    exact (h.body before j hj).mono ⟨List.prefix_refl _, List.prefix_append _ _, List.prefix_refl _⟩

theorem Typed.of_same {b b' : Builder p} (h : b.Typed) (hr : b'.registry = b.registry) (hc : b'.code = b.code)
    (hv : b'.arenaValue = b.arenaValue) (hs : b'.stack ⊆ b.stack) : b'.Typed :=
  ⟨hr.trans h.registry, hc ▸ h.imports, hc ▸ h.body, hc ▸ hv ▸ h.arenaValue,
    fun o ho => hc ▸ h.stack o (hs ho)⟩

end Builder

namespace Build

def Types {α : Type} (x : Build p α) (b : Builder p) (Q : α → Code → Prop) : Prop :=
  ∀ a b', Gives x b a b' → b'.Typed ∧ b.code.Extends b'.code ∧ Q a b'.code

namespace Types

variable {α β : Type} {b : Builder p}

theorem pure {a : α} {Q : α → Code → Prop} (h : b.Typed) (hq : Q a b.code) : Types (Pure.pure a : Build p α) b Q := by
  intro a' b' hg
  obtain ⟨rfl, rfl⟩ := gives_pure.mp hg
  exact ⟨h, .refl _, hq⟩

theorem throw (e : Error) {Q : α → Code → Prop} : Types (throw e : Build p α) b Q :=
  fun _ _ hg => absurd hg gives_throw

theorem bind {x : Build p α} {f : α → Build p β} {Q : α → Code → Prop} {R : β → Code → Prop} (hx : Types x b Q)
    (hf : ∀ a (b' : Builder p), b'.Typed → b.code.Extends b'.code → Q a b'.code → Types (f a) b' R) :
    Types (x >>= f) b R := by
  intro c b₂ hg
  obtain ⟨a, b₁, hga, hgc⟩ := gives_bind.mp hg
  obtain ⟨h₁, he₁, hq⟩ := hx a b₁ hga
  obtain ⟨h₂, he₂, hr⟩ := hf a b₁ h₁ he₁ hq c b₂ hgc
  exact ⟨h₂, he₁.trans he₂, hr⟩

theorem get_bind {f : Builder p → Build p β} {R : β → Code → Prop} (h : Types (f b) b R) : Types (get >>= f) b R :=
  fun c b' hg => h c b' (gives_get_bind.mp hg)

theorem lift_bind {x : Except Error α} {f : α → Build p β} {R : β → Code → Prop} (h : ∀ a, Types (f a) b R) :
    Types (liftM x >>= f) b R := by
  intro c b' hg
  obtain ⟨a, b₁, hga, hgc⟩ := gives_bind.mp hg
  obtain ⟨-, rfl⟩ := gives_lift.mp hga
  exact h a c b' hgc

theorem modify_bind {g : Builder p → Builder p} {f : PUnit → Build p β} {R : β → Code → Prop}
    (h : Types (f ⟨⟩) (g b) R) (he : b.code.Extends (g b).code) : Types (modify g >>= f) b R := by
  intro c b' hg
  obtain ⟨a, b₁, hga, hgc⟩ := gives_bind.mp hg
  obtain rfl := gives_modify.mp hga
  obtain ⟨h₁, he₁, hr⟩ := h c b' hgc
  exact ⟨h₁, he.trans he₁, hr⟩

theorem emit {i : Instr} {t : ValueType} (h : b.Typed) (hi : i.WellTyped p b.code b.code.body)
    (ht : i.result? = some t) : Types (emit i) b (fun v code => p.HasType code.body v t) := by
  intro v b' hg
  cases hg
  exact ⟨h.emit hi, ⟨List.prefix_refl _, List.prefix_refl _, List.prefix_append _ _⟩,
    Precision.hasType_concat h.result ht⟩

theorem arena (h : b.Typed) : Types arena b (fun v code => p.HasType code.body v .address) := by
  refine get_bind ?_
  split
  · rename_i v hv
    exact pure h (h.arenaValue v hv)
  · refine (emit h (.address .arena) rfl).bind (fun v b₁ h₁ _ hv => ?_)
    have hset : ({ b₁ with arenaValue := some v } : Builder p).Typed := by
      refine ⟨h₁.registry, h₁.imports, h₁.body, ?_, h₁.stack⟩
      rintro w ⟨⟩
      exact hv
    exact modify_bind (pure hset hv) (.refl _)

theorem declareSignature (h : b.Typed) (ts : List ValueType) :
    Types (declareSignature ts) b (fun s code => code.signatures[s]? = some ts) := by
  intro s b' hg
  cases hg
  exact ⟨h.declareSignature ts, ⟨List.prefix_append _ _, List.prefix_refl _, List.prefix_refl _⟩, by simp⟩

theorem importRoutine {r : Routine} (hr : r ∈ Routine.catalog p) (h : b.Typed) :
    Types (importRoutine r) b (fun f code => ∃ i, code.imports[f]? = some i ∧ i.symbol = r.symbol p) := by
  have hfind := Registry.find?_standard hr
  refine get_bind ?_
  simp only [h.registry, hfind]
  split
  · rename_i k hk
    obtain ⟨hlt, hsymbol, -⟩ := List.findIdx?_eq_some_iff_getElem.mp hk
    exact pure h ⟨_, List.getElem?_eq_getElem hlt, of_decide_eq_true hsymbol⟩
  · intro f b' hg
    cases hg
    have hsigned := h.declareSignature (r.convention p).parameters
    refine ⟨hsigned.declareImport hfind rfl (by simp) _,
      ⟨List.prefix_append _ _, List.prefix_append _ _, List.prefix_refl _⟩, ?_⟩
    exact ⟨_, List.getElem?_concat_length, rfl⟩

theorem callRoutine {r : Routine} (hr : r ∈ Routine.catalog p) {args : List Nat} {ts : List ValueType}
    (hts : (r.convention p).parameters = ts ++ [.address]) (h : b.Typed)
    (hargs : List.Forall₂ (p.HasType b.code.body) args ts) :
    Types (callRoutine r args) b (fun v code => p.HasType code.body v .address) := by
  refine (importRoutine hr h).bind (fun f b₁ h₁ he₁ himport => ?_)
  refine (arena h₁).bind (fun a b₂ h₂ he₂ ha => ?_)
  obtain ⟨i, hi, hsymbol⟩ := himport
  have hi₂ := getElem?_some_mono he₂.imports hi
  obtain ⟨e, hfind, htarget, hs⟩ := h₂.imports i (List.mem_of_getElem? hi₂)
  obtain ⟨slot, hslot, hget⟩ := Option.bind_eq_some_iff.mp hfind
  have he : e.convention = r.convention p := by
    rw [hsymbol, Registry.find?_standard hr] at hfind
    exact congrArg RegistryEntry.convention (Option.some.inj hfind).symm
  have hargs₂ : List.Forall₂ (p.HasType b₂.code.body) (args ++ [a]) e.convention.parameters := by
    rw [he, hts]
    have hbody := (he₁.trans he₂).body
    exact List.rel_append (hargs.imp fun _ _ ht => ht.mono hbody) (.cons ha .nil)
  refine (emit h₂ (.call hi₂ hslot hget htarget hs hargs₂) rfl).bind (fun v b₃ h₃ _ hv => ?_)
  exact modify_bind (pure (h₃.of_same rfl rfl rfl (List.Subset.refl _)) hv) (.refl _)

theorem callEntry (id : Nat) {args : List Nat} (h : b.Typed)
    (hargs : List.Forall₂ (p.HasType b.code.body) args p.parameters) :
    Types (callEntry id args) b (fun v code => p.HasType code.body v .address) := by
  refine (declareSignature h p.parameters).bind (fun s b₁ h₁ he₁ hs => ?_)
  refine (emit h₁ (.address (.entry id)) rfl).bind (fun target b₂ h₂ he₂ ht => ?_)
  have hargs₂ : List.Forall₂ (p.HasType b₂.code.body) args p.parameters :=
    hargs.imp fun _ _ ht => ht.mono (he₁.trans he₂).body
  have hcall : (Instr.callEntry s target args).WellTyped p b₂.code b₂.code.body :=
    .callEntry (getElem?_some_mono he₂.signatures hs) ht hargs₂
  refine (emit h₂ hcall rfl).bind (fun v b₃ h₃ _ hv => ?_)
  exact modify_bind (pure (h₃.of_same rfl rfl rfl (List.Subset.refl _)) hv) (.refl _)

theorem unwrap {o : Operand} (h : b.Typed) (ho : o.Typed p b.code.body) : Types (unwrap o) b
    (fun parts code => p.HasType code.body parts.1 .float ∧ p.HasType code.body parts.2 .float) := by
  cases o with
  | split re im => exact pure h ho
  | pointer v =>
    have ho : p.HasType b.code.body v .address := ho
    refine (emit h (.load .re ho) rfl).bind (fun re b₁ h₁ he₁ hre => ?_)
    refine (emit h₁ (.load .im (ho.mono he₁.body)) rfl).bind (fun im b₂ h₂ he₂ him => ?_)
    exact pure h₂ ⟨hre.mono he₂.body, him⟩

theorem address {o : Operand} (h : b.Typed) (ho : o.Typed p b.code.body) :
    Types (address o) b (fun v code => p.HasType code.body v .address) := by
  cases o with
  | split re im => exact throw _
  | pointer v => exact pure h ho

theorem arith (op : FloatOp) {x y : Nat} (h : b.Typed) (hx : p.HasType b.code.body x .float)
    (hy : p.HasType b.code.body y .float) : Types (arith op x y) b (fun v code => p.HasType code.body v .float) :=
  emit h (.arith op hx hy) rfl

theorem constant (z : p.Literal) (h : b.Typed) : Types (constant p z) b (fun o code => o.Typed p code.body) := by
  cases p with
  | double =>
    refine (emit h (.const _) rfl).bind (fun re b₁ h₁ _ hre => ?_)
    refine (emit h₁ (.const _) rfl).bind (fun im b₂ h₂ he₂ him => ?_)
    exact pure h₂ ⟨hre.mono he₂.body, him⟩
  | high =>
    refine get_bind ?_
    have hpin : ({ b with pinned := b.pinned ++ [z] } : Builder .high).Typed :=
      h.of_same rfl rfl rfl (List.Subset.refl _)
    exact modify_bind ((emit hpin (.address _) rfl).bind (fun v b₁ h₁ _ hv => pure h₁ hv)) (.refl _)

theorem partwise (op : FloatOp) {x y u v : Nat} (h : b.Typed) (hx : p.HasType b.code.body x .float)
    (hy : p.HasType b.code.body y .float) (hu : p.HasType b.code.body u .float)
    (hv : p.HasType b.code.body v .float) :
    Types (do return Operand.split (← Build.arith op x u) (← Build.arith op y v)) b
      (fun o code => o.Typed p code.body) := by
  refine (arith op h hx hu).bind (fun re b₁ h₁ he₁ hre => ?_)
  refine (arith op h₁ (hy.mono he₁.body) (hv.mono he₁.body)).bind (fun im b₂ h₂ he₂ him => ?_)
  exact pure h₂ ⟨hre.mono he₂.body, him⟩

theorem pointer {x : Build p Nat} (hx : Types x b (fun v code => p.HasType code.body v .address)) :
    Types (do return Operand.pointer (← x)) b (fun o code => o.Typed p code.body) :=
  hx.bind (fun _ _ h₁ _ hv => pure h₁ hv)

theorem binary (op : BinaryOp) {z w : Operand} (h : b.Typed) (hz : z.Typed p b.code.body)
    (hw : w.Typed p b.code.body) : Types (binary p op z w) b (fun o code => o.Typed p code.body) := by
  cases p with
  | double =>
    refine (unwrap h hz).bind (fun (x, y) b₁ h₁ he₁ ⟨hx, hy⟩ => ?_)
    refine (unwrap h₁ (hw.mono he₁.body)).bind (fun (u, v) b₂ h₂ he₂ ⟨hu, hv⟩ => ?_)
    have hx := hx.mono he₂.body
    have hy := hy.mono he₂.body
    have hargs : List.Forall₂ (Precision.double.HasType b₂.code.body) [x, y, u, v] [.float, .float, .float, .float] :=
      .cons hx (.cons hy (.cons hu (.cons hv .nil)))
    cases op with
    | add => exact partwise .add h₂ hx hy hu hv
    | sub => exact partwise .sub h₂ hx hy hu hv
    | mul =>
      refine (arith .mul h₂ hx hu).bind (fun ac b₃ h₃ he₃ hac => ?_)
      refine (arith .mul h₃ (hy.mono he₃.body) (hv.mono he₃.body)).bind (fun bd b₄ h₄ he₄ hbd => ?_)
      have he := he₃.trans he₄
      refine (arith .mul h₄ (hx.mono he.body) (hv.mono he.body)).bind (fun ad b₅ h₅ he₅ had => ?_)
      have he := he.trans he₅
      refine (arith .mul h₅ (hy.mono he.body) (hu.mono he.body)).bind (fun bc b₆ h₆ he₆ hbc => ?_)
      have he₅₆ := he₅.trans he₆
      refine (arith .sub h₆ (hac.mono (he₄.trans he₅₆).body) (hbd.mono he₅₆.body)).bind (fun re b₇ h₇ he₇ hre => ?_)
      refine (arith .add h₇ (had.mono (he₆.trans he₇).body) (hbc.mono he₇.body)).bind (fun im b₈ h₈ he₈ him => ?_)
      exact pure h₈ ⟨hre.mono he₈.body, him⟩
    | div | pow => exact pointer (callRoutine (Routine.binary_mem_catalog .double _) rfl h₂ hargs)
  | high =>
    refine (address h hz).bind (fun x b₁ h₁ he₁ hx => ?_)
    refine (address h₁ (hw.mono he₁.body)).bind (fun y b₂ h₂ he₂ hy => ?_)
    have hargs : List.Forall₂ (Precision.high.HasType b₂.code.body) [x, y] [.address, .address] :=
      .cons (hx.mono he₂.body) (.cons hy .nil)
    exact pointer (callRoutine (Routine.binary_mem_catalog .high op) rfl h₂ hargs)

theorem unary (op : UnaryOp) {z : Operand} (h : b.Typed) (hz : z.Typed p b.code.body) :
    Types (unary p op z) b (fun o code => o.Typed p code.body) := by
  cases p with
  | double =>
    refine (unwrap h hz).bind (fun (x, y) b₁ h₁ _ ⟨hx, hy⟩ => ?_)
    exact pointer (callRoutine (Routine.unary_mem_catalog .double op) rfl h₁ (.cons hx (.cons hy .nil)))
  | high =>
    refine (address h hz).bind (fun x b₁ h₁ _ hx => ?_)
    exact pointer (callRoutine (Routine.unary_mem_catalog .high op) rfl h₁ (.cons hx .nil))

theorem enter (id : Nat) {z : Operand} (h : b.Typed) (hz : z.Typed p b.code.body) :
    Types (enter p id z) b (fun o code => o.Typed p code.body) := by
  cases p with
  | double =>
    refine (unwrap h hz).bind (fun (x, y) b₁ h₁ _ ⟨hx, hy⟩ => ?_)
    refine (callEntry id h₁ (.cons hx (.cons hy .nil))).bind (fun v b₂ h₂ _ hv => ?_)
    exact (unwrap (o := .pointer v) h₂ hv).bind (fun (x, y) b₃ h₃ _ hparts => pure h₃ hparts)
  | high =>
    refine (address h hz).bind (fun x b₁ h₁ _ hx => ?_)
    refine (callEntry id h₁ (.cons hx .nil)).bind (fun v b₂ h₂ _ hv => ?_)
    exact pointer (callRoutine (by decide) rfl h₂ (.cons hv .nil))

theorem result {z : Operand} (h : b.Typed) (hz : z.Typed p b.code.body) :
    Types (result p z) b (fun v code => p.HasType code.body v .address) := by
  cases p with
  | double =>
    cases z with
    | split re im => exact callRoutine (by decide) rfl h (.cons hz.1 (.cons hz.2 .nil))
    | pointer v => exact pure h hz
  | high => exact address h hz

theorem push {o : Operand} (h : b.Typed) (ho : o.Typed p b.code.body) : Types (push o) b (fun _ _ => True) := by
  intro _ b' hg
  cases hg
  refine ⟨⟨h.registry, h.imports, h.body, h.arenaValue, ?_⟩, .refl _, trivial⟩
  intro o' ho'
  rcases List.mem_cons.mp ho' with rfl | ho'
  · exact ho
  · exact h.stack o' ho'

theorem then_push {x : Build p Operand} (hx : Types x b (fun o code => o.Typed p code.body)) :
    Types (x >>= Build.push) b (fun _ _ => True) :=
  hx.bind (fun _ _ h₁ _ ho => push h₁ ho)

theorem pop (name : String) (h : b.Typed) : Types (pop name) b (fun o code => o.Typed p code.body) := by
  refine get_bind ?_
  split
  · exact throw _
  · rename_i o rest hs
    have hrest : ({ b with stack := rest } : Builder p).Typed :=
      h.of_same rfl rfl rfl (hs ▸ List.subset_cons_self o rest)
    exact modify_bind (pure hrest (h.stack o (hs ▸ List.mem_cons_self))) (.refl _)

section Reading

variable {scope : Scope} {settings : Settings} {parameter : String}

theorem pushParameter (h : b.Typed) : Types pushParameter b (fun _ _ => True) := by
  refine push h ?_
  cases p with
  | double =>
    have hvalues : Precision.values .double b.code.body =
      (0, .float) :: (1, .float) :: Instr.definitions 2 b.code.body := rfl
    unfold Operand.Typed Build.parameter Precision.HasType
    simp [hvalues]
  | high =>
    have hvalues : Precision.values .high b.code.body = (0, .address) :: Instr.definitions 1 b.code.body := rfl
    unfold Operand.Typed Build.parameter Precision.HasType
    simp [hvalues]

theorem token (t : Token) (h : b.Typed) : Types (Build.token scope settings parameter t) b (fun _ _ => True) := by
  cases t with
  | number text => exact lift_bind (fun z => then_push (constant z h))
  | identifier name =>
    simp only [Build.token]
    split
    · exact pushParameter h
    · exact lift_bind (fun z => then_push (constant z h))
  | operator symbol =>
    simp only [Build.token]
    split
    · rename_i op _
      cases op with
      | binary op =>
        refine (pop _ h).bind (fun w b₁ h₁ _ hw => ?_)
        refine (pop _ h₁).bind (fun z b₂ h₂ he₂ hz => ?_)
        exact then_push (binary op h₂ hz (hw.mono he₂.body))
      | unary op => exact (pop _ h).bind (fun z b₁ h₁ _ hz => then_push (unary op h₁ hz))
    · exact throw _
  | call name =>
    exact lift_bind (fun id => (pop name h).bind (fun z b₁ h₁ _ hz => then_push (enter id h₁ hz)))

theorem tokens (ts : List Token) (h : b.Typed) :
    Types (ts.forM (Build.token scope settings parameter)) b (fun _ _ => True) := by
  induction ts generalizing b with
  | nil => exact pure h trivial
  | cons t ts ih => exact (token t h).bind (fun _ b₁ h₁ _ _ => ih h₁)

end Reading

end Types

end Build

/-- One block that ends in its only return, of an address. Every instruction before it uses values
that were defined once and before, as what they are; the arena is the last argument of every
routine, and an entry of one of the `callees` the target of every other call. -/
structure Code.WellFormed (p : Precision) (callees : List Nat) (code : Code) : Prop where
  defined_once : ((p.values code.body).map Prod.fst).Nodup
  returns : ∃ body v, code.body = body ++ [.ret v] ∧ p.HasType body v .address ∧
    ∀ before i, before ++ [i] <+: body → i.WellTyped p code before ∧ i.Placed p callees before

theorem built_code_is_well_formed (scope : Scope) (settings : Settings) (parameter : String) (tokens : List Token) :
    (∀ a : Artifact p, Artifact.ofTokens scope settings parameter tokens = .ok a → a.code.WellFormed p a.callees) ∧
    ∀ cause, (Artifact.ofTokens scope settings parameter tokens : Except Error (Artifact p)) ≠
      .error (.backend cause) := by
  constructor
  · intro a h
    refine ⟨p.nodup_values a.code.body, ?_⟩
    obtain ⟨placedBody, v', hbody', hplaced, -⟩ := Artifact.placed_ofTokens h
    obtain ⟨t, b₁, b₂, n, -, htokens, hfinish, -, -, rfl⟩ := Artifact.ofTokens_eq_ok h
    obtain ⟨z, v, b₃, hstack, hresult, -, rfl⟩ := Build.gives_finish.mp hfinish
    obtain ⟨h₁, -, -⟩ := Build.Types.tokens tokens Builder.typed_empty _ _ htokens
    obtain ⟨h₃, he₃, hv⟩ := Build.Types.result h₁ (h₁.stack z (by simp [hstack])) _ _ hresult
    obtain ⟨rfl, -⟩ := List.append_inj' hbody' rfl
    refine ⟨b₃.code.body, v, rfl, hv, fun before i hi => ⟨?_, hplaced before i hi⟩⟩
    exact (h₃.body before i hi).mono ⟨List.prefix_refl _, List.prefix_refl _, List.prefix_append _ _⟩
  · intro cause h
    exact Tree.parse_ne_backend tokens cause (Artifact.ofTokens_eq_error.mp h)

theorem built_code_is_well_formed_quotient : ∃ a : Artifact .double,
    Artifact.ofTokens ⟨fun _ => none, fun _ => some ⟨.double, 0⟩⟩ {} "x"
      [.identifier "x", .call "square", .identifier "x", .operator "sin", .operator "/"] = .ok a ∧
    a.code.WellFormed .double a.callees := by
  have hparse : Tree.parse ⟨fun _ => none, fun _ => some ⟨.double, 0⟩⟩ .double false "x"
      [.identifier "x", .call "square", .identifier "x", .operator "sin", .operator "/"] =
        .ok (.binary .div (.call "square" (.identifier "x")) (.unary .sin (.identifier "x"))) := rfl
  obtain ⟨a, ha⟩ := Artifact.exists_ofTokens {} hparse
  exact ⟨a, ha, (built_code_is_well_formed _ _ _ _).1 a ha⟩

end Phasor
