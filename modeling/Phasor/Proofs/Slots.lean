import Phasor.Proofs.Building

namespace Phasor

variable {p : Precision}

namespace Token

def callsRoutine : Token → Bool
  | operator symbol => symbol ∈ "/" :: "^" :: UnaryOp.all.map UnaryOp.symbol
  | _ => false

def claims : Precision → Token → Bool
  | .double, t => t.callsRoutine
  | .high, t => t.kind = .operator || t.kind = .call

def pins : Precision → String → Token → Bool
  | .double, _, _ => false
  | .high, parameter, t => t.kind = .number || (t.kind = .identifier && t.value ≠ parameter)

theorem claims_unary (p : Precision) (op : UnaryOp) : claims p (operator op.symbol) = true := by
  cases p <;> cases op <;> decide

theorem countP_claims_high (tokens : List Token) :
    tokens.countP (claims .high) = tokens.countP (·.kind = .operator) + tokens.countP (·.kind = .call) := by
  induction tokens with
  | nil => rfl
  | cons t tokens ih => cases t <;> simp [claims, kind, ih] <;> omega

theorem countP_pins_high (parameter : String) (tokens : List Token) :
    tokens.countP (pins .high parameter) = tokens.countP (·.kind = .number) +
      tokens.countP (fun t => t.kind = .identifier && t.value ≠ parameter) := by
  induction tokens with
  | nil => rfl
  | cons t tokens ih =>
    cases t with
    | identifier name =>
      by_cases h : name = parameter
      · simp [pins, kind, value, ih, h]
      · simp [pins, kind, value, ih, h]
        omega
    | _ => simp [pins, kind, ih] <;> omega

end Token

def Operand.isPointer : Operand → Bool
  | split _ _ => false
  | pointer _ => true

def Instr.isCall : Instr → Bool
  | call _ _ => true
  | _ => false

/-- A routine is called with the arena that was loaded before, and a function of the list `callees`
by the entry that was loaded before, with as many words as it has parameters. Nothing is returned in
between. -/
def Instr.Placed (p : Precision) (callees : List Nat) (before : List Instr) : Instr → Prop
  | call _ args => ∃ k, args.getLast? = some (p.parameters.length + k) ∧ before[k]? = some (.address .arena)
  | callEntry _ target args => args.length = p.parameters.length ∧
      ∃ k id, target = p.parameters.length + k ∧ before[k]? = some (.address (.entry id)) ∧ id ∈ callees
  | ret _ => False
  | _ => True

theorem Instr.Placed.mono {callees callees' : List Nat} {before : List Instr} {i : Instr}
    (h : i.Placed p callees before) (hs : callees ⊆ callees') : i.Placed p callees' before := by
  cases i with
  | callEntry signature target args =>
    obtain ⟨hargs, k, id, hk, hload, hid⟩ := h
    exact ⟨hargs, k, id, hk, hload, hs hid⟩
  | _ => exact h

def Code.Placed (p : Precision) (callees : List Nat) (body : List Instr) : Prop :=
  ∀ before i, before ++ [i] <+: body → i.Placed p callees before

theorem Code.Placed.concat {callees : List Nat} {body : List Instr} {i : Instr} (h : Code.Placed p callees body)
    (hi : i.Placed p callees body) : Code.Placed p callees (body ++ [i]) := by
  intro before j hj
  rcases List.prefix_concat_iff.mp hj with heq | hj
  · obtain ⟨rfl, hlast⟩ := List.append_inj' heq rfl
    obtain rfl := List.singleton_inj.mp hlast
    exact hi
  · exact h before j hj

theorem getElem?_some_mono {α : Type} {xs ys : List α} (h : xs <+: ys) {k : Nat} {a : α} (hk : xs[k]? = some a) :
    ys[k]? = some a := by
  obtain ⟨added, rfl⟩ := h
  rw [List.getElem?_append_left (List.getElem?_eq_some_iff.mp hk).1, hk]

theorem getElem?_concat_of_some {α : Type} {xs : List α} {k : Nat} {a : α} (h : xs[k]? = some a) (b : α) :
    (xs ++ [b])[k]? = some a :=
  getElem?_some_mono (List.prefix_append _ _) h

theorem eraseDups_concat {α : Type} [DecidableEq α] (xs : List α) (a : α) :
    (xs ++ [a]).eraseDups = if a ∈ xs then xs.eraseDups else xs.eraseDups ++ [a] := by
  rw [List.eraseDups_append]
  by_cases h : a ∈ xs
  · simp [List.removeAll, h]
  · simp [List.removeAll, h]
    rfl

namespace Builder

structure Placed (b : Builder p) : Prop where
  body : Code.Placed p b.callees b.code.body
  arenaValue : ∀ v, b.arenaValue = some v →
    ∃ k, v = p.parameters.length + k ∧ b.code.body[k]? = some (.address .arena)
  slots : b.code.body.countP Instr.isCall = b.arenaSize

theorem placed_empty : ({} : Builder p).Placed := by
  refine ⟨?_, by simp, rfl⟩
  intro before i h
  simp [List.prefix_nil] at h

structure Same (b b' : Builder p) : Prop where
  body : b'.code.body = b.code.body
  arenaValue : b'.arenaValue = b.arenaValue
  arenaSize : b'.arenaSize = b.arenaSize
  pinned : b'.pinned = b.pinned
  callees : b'.callees = b.callees

theorem Placed.of_subset {b b' : Builder p} (h : b.Placed) (hb : b'.code.body = b.code.body)
    (hv : b'.arenaValue = b.arenaValue) (hn : b'.arenaSize = b.arenaSize) (hc : b.callees ⊆ b'.callees) :
    b'.Placed := by
  refine ⟨?_, ?_, by rw [hb, hn, h.slots]⟩
  · rw [hb]
    intro before i hi
    exact (h.body before i hi).mono hc
  · rw [hb, hv]
    exact h.arenaValue

theorem Placed.emit {b : Builder p} (h : b.Placed) {i : Instr} (hi : i.Placed p b.callees b.code.body)
    (hc : i.isCall = false) : ({ b with code.body := b.code.body ++ [i] } : Builder p).Placed := by
  refine ⟨h.body.concat hi, ?_, by simp [hc, h.slots]⟩
  intro v hv
  obtain ⟨k, hk, hbody⟩ := h.arenaValue v hv
  exact ⟨k, hk, getElem?_concat_of_some hbody i⟩

end Builder

namespace Build

def Spends {α : Type} (slots pins : Nat) (x : Build p α) (Q : α → Builder p → Prop) : Prop :=
  ∀ b a b', Gives x b a b' → (b.Placed → b'.Placed) ∧ b'.arenaSize = b.arenaSize + slots ∧
    b'.pinned.length = b.pinned.length + pins ∧ Q a b'

namespace Spends

variable {α β : Type} {n k : Nat}

theorem of_same {x : Build p α} {Q : α → Builder p → Prop} (h : ∀ b a b', Gives x b a b' → b.Same b' ∧ Q a b') :
    Spends 0 0 x Q := by
  intro b a b' hg
  obtain ⟨hs, hq⟩ := h b a b' hg
  refine ⟨?_, hs.arenaSize, by simp [hs.pinned], hq⟩
  intro hplaced
  exact hplaced.of_subset hs.body hs.arenaValue hs.arenaSize (by simp [hs.callees])

theorem pure_of {a : α} {Q : α → Builder p → Prop} (h : ∀ b, Q a b) : Spends 0 0 (Pure.pure a : Build p α) Q := by
  apply of_same
  intro b a' b' hg
  obtain ⟨rfl, rfl⟩ := gives_pure.mp hg
  exact ⟨⟨rfl, rfl, rfl, rfl, rfl⟩, h b'⟩

theorem pure (a : α) : Spends 0 0 (Pure.pure a : Build p α) (fun _ _ => True) :=
  pure_of (fun _ => trivial)

theorem lift {x : Except Error α} : Spends 0 0 (liftM x : Build p α) (fun _ _ => True) := by
  apply of_same
  intro b a b' hg
  obtain ⟨-, rfl⟩ := gives_lift.mp hg
  exact ⟨⟨rfl, rfl, rfl, rfl, rfl⟩, trivial⟩

theorem append {n' k' : Nat} {x : Build p α} {f : α → Build p β} {Q : α → Builder p → Prop}
    {R : β → Builder p → Prop} (hx : Spends n k x Q) (hf : ∀ a b, Q a b → Spends n' k' (f a) R) :
    Spends (n + n') (k + k') (x >>= f) R := by
  intro b c b' hg
  obtain ⟨a, b₁, hga, hgc⟩ := gives_bind.mp hg
  obtain ⟨hpl₁, hn₁, hk₁, hq⟩ := hx b a b₁ hga
  obtain ⟨hpl₂, hn₂, hk₂, hr⟩ := hf a b₁ hq b₁ c b' hgc
  exact ⟨fun h => hpl₂ (hpl₁ h), by omega, by omega, hr⟩

theorem bind {x : Build p α} {f : α → Build p β} {Q : α → Builder p → Prop} {R : β → Builder p → Prop}
    (hx : Spends 0 0 x Q) (hf : ∀ a b, Q a b → Spends n k (f a) R) : Spends n k (x >>= f) R := by
  have h := hx.append hf
  rwa [Nat.zero_add, Nat.zero_add] at h

theorem bind_last {x : Build p α} {f : α → Build p β} {Q : α → Builder p → Prop} {R : β → Builder p → Prop}
    (hx : Spends n k x Q) (hf : ∀ a b, Q a b → Spends 0 0 (f a) R) : Spends n k (x >>= f) R :=
  hx.append hf

theorem emit_bind {i : Instr} {f : Nat → Build p β} {R : β → Builder p → Prop}
    (hi : ∀ callees before, i.Placed p callees before) (hc : i.isCall = false)
    (hf : ∀ v, Spends n k (f v) R) : Spends n k (emit i >>= f) R := by
  refine bind (Q := fun _ _ => True) ?_ (fun v _ _ => hf v)
  intro b v b' hg
  cases hg
  exact ⟨fun h => h.emit (hi _ _) hc, rfl, rfl, trivial⟩

theorem declareSignature (ts : List ValueType) :
    Spends 0 0 (declareSignature ts : Build p Nat) (fun _ _ => True) := by
  apply of_same
  intro b v b' hg
  cases hg
  exact ⟨⟨rfl, rfl, rfl, rfl, rfl⟩, trivial⟩

theorem modify_bind {g : Builder p → Builder p} {f : PUnit → Build p β} {R : β → Builder p → Prop}
    (h : ∀ b : Builder p, b.Same (g b)) (hf : Spends n k (f ⟨⟩) R) : Spends n k (modify g >>= f) R := by
  refine bind (Q := fun _ _ => True) (of_same ?_) (fun _ _ _ => hf)
  intro b v b' hg
  obtain rfl := gives_modify.mp hg
  exact ⟨h b, trivial⟩

theorem get_bind {f : Builder p → Build p β} {R : β → Builder p → Prop} (h : ∀ b, Spends n k (f b) R) :
    Spends n k (get >>= f) R := by
  intro b c b' hg
  exact h b b c b' (gives_get_bind.mp hg)

theorem throw (e : Error) {R : α → Builder p → Prop} : Spends n k (throw e : Build p α) R :=
  fun _ _ _ hg => absurd hg gives_throw

theorem importRoutine (r : Routine) : Spends 0 0 (importRoutine r : Build p Nat) (fun _ _ => True) := by
  refine get_bind (fun b => ?_)
  split
  · exact throw _
  · split
    · exact pure _
    · refine (declareSignature _).bind (fun s _ _ => ?_)
      exact modify_bind (fun b => ⟨rfl, rfl, rfl, rfl, rfl⟩) (pure _)

theorem gives_arena {b b' : Builder p} {v : Nat} (hg : Gives (arena : Build p Nat) b v b') :
    b'.arenaSize = b.arenaSize ∧ b'.pinned = b.pinned ∧
      (b.Placed → b'.Placed ∧ ∃ k, v = p.parameters.length + k ∧ b'.code.body[k]? = some (.address .arena)) := by
  have hg := gives_get_bind.mp hg
  split at hg
  · rename_i w hw
    obtain ⟨rfl, rfl⟩ := gives_pure.mp hg
    exact ⟨rfl, rfl, fun h => ⟨h, h.arenaValue v hw⟩⟩
  · cases hg
    have hload : (b.code.body ++ [.address .arena])[b.code.body.length]? = some (Instr.address .arena) := by simp
    refine ⟨rfl, rfl, fun h => ⟨⟨h.body.concat trivial, ?_, ?_⟩, _, rfl, hload⟩⟩
    · intro w hw
      cases hw
      exact ⟨_, rfl, hload⟩
    · simp [Instr.isCall, h.slots]

theorem callRoutine (r : Routine) (args : List Nat) :
    Spends 1 0 (callRoutine r args : Build p Nat) (fun _ _ => True) := by
  refine (importRoutine r).bind (fun f _ _ => ?_)
  intro b v b' hg
  obtain ⟨a, b₁, ha, hg⟩ := gives_bind.mp hg
  obtain ⟨hn, hk, hplaced⟩ := gives_arena ha
  cases hg
  refine ⟨fun h => ?_, by simp [hn], by simp [hk], trivial⟩
  obtain ⟨h₁, k, rfl, hbody⟩ := hplaced h
  refine ⟨h₁.body.concat ⟨k, by simp, hbody⟩, ?_, ?_⟩
  · intro w hw
    obtain ⟨j, hj, hload⟩ := h₁.arenaValue w hw
    exact ⟨j, hj, getElem?_concat_of_some hload _⟩
  · simp [Instr.isCall, h₁.slots]

theorem callEntry (id : Nat) {args : List Nat} (hargs : args.length = p.parameters.length) :
    Spends 0 0 (callEntry id args : Build p Nat) (fun _ _ => True) := by
  intro b v b' hg
  cases hg
  refine ⟨?_, rfl, rfl, trivial⟩
  intro h
  let callees := if id ∈ b.callees then b.callees else b.callees ++ [id]
  have hid : id ∈ callees := by
    by_cases hmem : id ∈ b.callees <;> simp [callees, hmem]
  have hsub : b.callees ⊆ callees := by
    by_cases hmem : id ∈ b.callees <;> simp [callees, hmem]
  have hlisted : ({ b with callees := callees } : Builder p).Placed := h.of_subset rfl rfl rfl hsub
  have hloaded := hlisted.emit (i := .address (.entry id)) trivial rfl
  have hplaced := hloaded.emit
    (i := .callEntry b.code.signatures.length (p.parameters.length + b.code.body.length) args)
    ⟨hargs, b.code.body.length, id, rfl, by simp, hid⟩ rfl
  exact hplaced.of_subset rfl rfl rfl (List.Subset.refl _)

theorem unwrap (o : Operand) : Spends 0 0 (unwrap o : Build p (Nat × Nat)) (fun _ _ => True) := by
  cases o with
  | split re im => exact pure _
  | pointer v =>
    exact emit_bind (fun _ _ => trivial) rfl (fun _ => emit_bind (fun _ _ => trivial) rfl (fun _ => pure _))

theorem address (o : Operand) : Spends 0 0 (address o : Build p Nat) (fun _ _ => True) := by
  cases o with
  | split re im => exact throw _
  | pointer v => exact pure _

theorem push (o : Operand) :
    Spends 0 0 (push o : Build p Unit) (fun _ b => ∃ rest, b.stack = o :: rest) := by
  apply of_same
  intro b v b' hg
  cases hg
  exact ⟨⟨rfl, rfl, rfl, rfl, rfl⟩, _, rfl⟩

theorem pop (name : String) : Spends 0 0 (pop name : Build p Operand) (fun _ _ => True) := by
  refine get_bind (fun b => ?_)
  split
  · exact throw _
  · exact modify_bind (fun b => ⟨rfl, rfl, rfl, rfl, rfl⟩) (pure _)

theorem constant (z : p.Literal) : Spends 0 (decide (p = .high)).toNat (constant p z)
    (fun o _ => p = .double → o.isPointer = false) := by
  cases p with
  | double =>
    refine emit_bind (fun _ _ => trivial) rfl (fun _ => emit_bind (fun _ _ => trivial) rfl (fun _ => ?_))
    exact pure_of (fun _ _ => rfl)
  | high =>
    intro b o b' hg
    cases hg
    refine ⟨fun h => ?_, rfl, by simp, by simp⟩
    have hpin : ({ b with pinned := b.pinned ++ [z] } : Builder .high).Placed :=
      h.of_subset rfl rfl rfl (List.Subset.refl _)
    exact hpin.emit trivial rfl

theorem binary (op : BinaryOp) (z w : Operand) : Spends (Token.claims p (.operator op.symbol)).toNat 0 (binary p op z w)
    (fun o _ => p = .double → o.isPointer = Token.claims .double (.operator op.symbol)) := by
  cases p with
  | double =>
    refine (unwrap z).bind (fun (a, b) _ _ => (unwrap w).bind (fun (c, d) _ _ => ?_))
    have hr := callRoutine (p := .double) (.binary op) [a, b, c, d]
    cases op with
    | add | sub =>
      refine emit_bind (fun _ _ => trivial) rfl (fun _ => emit_bind (fun _ _ => trivial) rfl (fun _ => ?_))
      exact pure_of (fun _ _ => rfl)
    | mul =>
      refine emit_bind (fun _ _ => trivial) rfl (fun _ => emit_bind (fun _ _ => trivial) rfl (fun _ => ?_))
      refine emit_bind (fun _ _ => trivial) rfl (fun _ => emit_bind (fun _ _ => trivial) rfl (fun _ => ?_))
      refine emit_bind (fun _ _ => trivial) rfl (fun _ => emit_bind (fun _ _ => trivial) rfl (fun _ => ?_))
      exact pure_of (fun _ _ => rfl)
    | div | pow =>
      refine hr.bind_last (fun _ _ _ => ?_)
      exact pure_of (fun _ _ => rfl)
  | high =>
    refine (address z).bind (fun a _ _ => (address w).bind (fun b _ _ => ?_))
    refine (callRoutine (.binary op) [a, b]).bind_last (fun _ _ _ => ?_)
    exact pure_of (fun _ h => nomatch h)

theorem unary (op : UnaryOp) (z : Operand) :
    Spends 1 0 (unary p op z) (fun o _ => p = .double → o.isPointer = true) := by
  cases p with
  | double =>
    refine (unwrap z).bind (fun (a, b) _ _ => (callRoutine (.unary op) [a, b]).bind_last (fun _ _ _ => ?_))
    exact pure_of (fun _ _ => rfl)
  | high =>
    refine (address z).bind (fun a _ _ => (callRoutine (.unary op) [a]).bind_last (fun _ _ _ => ?_))
    exact pure_of (fun _ _ => rfl)

theorem enter (id : Nat) (z : Operand) :
    Spends (decide (p = .high)).toNat 0 (enter p id z) (fun o _ => p = .double → o.isPointer = false) := by
  cases p with
  | double =>
    refine (unwrap z).bind (fun (a, b) _ _ => (callEntry id rfl).bind (fun v _ _ => ?_))
    refine (unwrap (.pointer v)).bind (fun (c, d) _ _ => ?_)
    exact pure_of (fun _ _ => rfl)
  | high =>
    refine (address z).bind (fun a _ _ => (callEntry id rfl).bind (fun v _ _ => ?_))
    refine (callRoutine .copy [v]).bind_last (fun _ _ _ => ?_)
    exact pure_of (fun _ h => nomatch h)

theorem result (z : Operand) :
    Spends (p = .double && !z.isPointer).toNat 0 (result p z) (fun _ _ => True) := by
  cases p with
  | double =>
    cases z with
    | split re im => exact callRoutine .wrap [re, im]
    | pointer v => exact pure v
  | high => exact address z

theorem then_push {x : Build p Operand} {Q : Operand → Prop} (hx : Spends n k x (fun o _ => Q o)) :
    Spends n k (x >>= Build.push) (fun _ b => ∃ o rest, b.stack = o :: rest ∧ Q o) := by
  refine hx.bind_last (fun o b₀ hq => ?_)
  intro b v b' hg
  obtain ⟨hplaced, hn, hk, rest, hs⟩ := push o b v b' hg
  exact ⟨hplaced, hn, hk, o, rest, hs, hq⟩

section Reading

variable {scope : Scope} {settings : Settings} {parameter : String}

theorem pushConstant (x : Except Error p.Literal) : Spends 0 (decide (p = .high)).toNat
    (do Build.pushConstant (← x) : Build p Unit)
    (fun _ b => ∃ o rest, b.stack = o :: rest ∧ (p = .double → o.isPointer = false)) :=
  lift.bind (fun z _ _ => then_push (constant z))

theorem pushParameter : Spends 0 0 (pushParameter : Build p Unit)
    (fun _ b => ∃ o rest, b.stack = o :: rest ∧ (p = .double → o.isPointer = false)) := by
  intro b v b' hg
  obtain ⟨hplaced, hn, hk, rest, hs⟩ := push (parameter p) b v b' hg
  exact ⟨hplaced, hn, hk, _, rest, hs, fun h => h ▸ rfl⟩

theorem applyOperator (op : Operator) : Spends (Token.claims p (.operator op.symbol)).toNat 0
    (applyOperator op : Build p Unit)
    (fun _ b => ∃ o rest, b.stack = o :: rest ∧
      (p = .double → o.isPointer = Token.claims .double (.operator op.symbol))) := by
  cases op with
  | binary op => exact (pop _).bind (fun w _ _ => (pop _).bind (fun z _ _ => then_push (binary op z w)))
  | unary op =>
    have h (z : Operand) := then_push (unary (p := p) op z)
    simp only [Operator.symbol, Token.claims_unary]
    exact (pop _).bind (fun z _ _ => h z)

theorem token (t : Token) : Spends (t.claims p).toNat (t.pins p parameter).toNat
    (Build.token scope settings parameter t : Build p Unit)
    (fun _ b => ∃ o rest, b.stack = o :: rest ∧ (p = .double → o.isPointer = t.claims .double)) := by
  cases t with
  | number text =>
    have h := pushConstant (p.number text)
    cases p <;> exact h
  | identifier name =>
    simp only [Build.token]
    split
    · rename_i he
      subst he
      have h := pushParameter (p := p)
      cases p
      · exact h
      · simpa [Token.claims, Token.pins, Token.kind, Token.value] using h
    · rename_i hne
      have h := pushConstant (scope.constant p name)
      cases p
      · exact h
      · simpa [Token.claims, Token.pins, Token.kind, Token.value, hne] using h
  | operator symbol =>
    simp only [Build.token]
    split
    · rename_i op hop
      obtain rfl := Operator.symbol_of_ofSymbol? hop
      have h := applyOperator (p := p) op
      cases p <;> exact h
    · exact throw _
  | call name =>
    have h (id : Nat) := (pop (p := p) name).bind (fun z _ _ => then_push (enter id z))
    have h := lift.bind (x := liftM (scope.entry p name)) (fun id _ _ => h id)
    cases p <;> exact h

theorem tokens (ts : List Token) : Spends (ts.countP (Token.claims p)) (ts.countP (Token.pins p parameter))
    (ts.forM (Build.token scope settings parameter) : Build p PUnit)
    (fun _ b => ∀ t, ts.getLast? = some t →
      ∃ o rest, b.stack = o :: rest ∧ (p = .double → o.isPointer = t.claims .double)) := by
  induction ts with
  | nil => exact pure_of (by simp)
  | cons t ts ih =>
    intro b v b' hg
    obtain ⟨_, b₁, hg₁, hg₂⟩ := gives_bind.mp hg
    obtain ⟨hpl₁, hn₁, hk₁, htop₁⟩ := token t b _ b₁ hg₁
    obtain ⟨hpl₂, hn₂, hk₂, htop₂⟩ := ih b₁ v b' hg₂
    refine ⟨fun h => hpl₂ (hpl₁ h), ?_, ?_, ?_⟩
    · rw [hn₂, hn₁, List.countP_cons]
      cases Token.claims p t with
      | false => simp
      | true =>
        simp
        omega
    · rw [hk₂, hk₁, List.countP_cons]
      cases Token.pins p parameter t with
      | false => simp
      | true =>
        simp
        omega
    · intro last hlast
      cases ts with
      | nil =>
        obtain ⟨-, rfl⟩ := gives_pure.mp hg₂
        obtain rfl : t = last := by simpa using hlast
        exact htop₁
      | cons u ts => exact htop₂ last (by simpa [List.getLast?_cons_cons] using hlast)

end Reading

end Spends

end Build

namespace Artifact

variable {scope : Scope} {settings : Settings} {parameter : String} {tokens : List Token}

theorem placed_ofTokens {a : Artifact p} (h : ofTokens scope settings parameter tokens = .ok a) :
    ∃ body v, a.code.body = body ++ [.ret v] ∧ Code.Placed p a.callees body ∧
      body.countP Instr.isCall = a.arenaSize := by
  obtain ⟨t, b₁, b₂, n, -, htokens, hfinish, -, -, rfl⟩ := ofTokens_eq_ok h
  obtain ⟨z, v, b₃, -, hresult, -, rfl⟩ := Build.gives_finish.mp hfinish
  have h₁ : b₁.Placed := (Build.Spends.tokens tokens _ _ _ htokens).1 Builder.placed_empty
  have h₃ : b₃.Placed := (Build.Spends.result z _ _ _ hresult).1 h₁
  exact ⟨b₃.code.body, v, rfl, h₃.body, h₃.slots⟩

theorem isPointer_of_tokens {b : Builder p} {z : Operand}
    (h : Gives (tokens.forM (Build.token scope settings parameter)) {} ⟨⟩ b) (hs : b.stack = [z]) (hp : p = .double) :
    z.isPointer = tokens.getLast?.any (Token.claims .double) := by
  obtain ⟨-, -, -, htop⟩ := Build.Spends.tokens tokens _ _ _ h
  obtain ⟨last, hlast⟩ : ∃ last, tokens.getLast? = some last := by
    rcases tokens with _ | ⟨u, us⟩
    · obtain ⟨-, rfl⟩ := gives_pure.mp h
      simp at hs
    · exact ⟨_, List.getLast?_cons⟩
  obtain ⟨o, rest, hstack, hform⟩ := htop last hlast
  obtain ⟨rfl, -⟩ : o = z ∧ rest = [] := by simpa [hstack] using hs
  rw [hform hp, hlast]
  rfl

theorem sizes_ofTokens {a : Artifact p} (h : ofTokens scope settings parameter tokens = .ok a) :
    a.arenaSize = tokens.countP (Token.claims p) +
        (p = .double && !tokens.getLast?.any (Token.claims .double)).toNat ∧
      a.pinned.length = tokens.countP (Token.pins p parameter) := by
  obtain ⟨t, b₁, b₂, n, -, htokens, hfinish, -, -, rfl⟩ := ofTokens_eq_ok h
  obtain ⟨z, v, b₃, hstack, hresult, -, rfl⟩ := Build.gives_finish.mp hfinish
  obtain ⟨-, hn₁, hk₁, -⟩ := Build.Spends.tokens tokens _ _ _ htokens
  obtain ⟨-, hn₂, hk₂, -⟩ := Build.Spends.result z _ _ _ hresult
  refine ⟨?_, by simp [hk₂, hk₁]⟩
  cases p with
  | double => simp [hn₂, hn₁, isPointer_of_tokens htokens hstack rfl]
  | high => simp [hn₂, hn₁]

theorem sizes_double {a : Artifact .double} (h : ofTokens scope settings parameter tokens = .ok a) :
    a.arenaSize = tokens.countP Token.callsRoutine + (if tokens.getLast?.any Token.callsRoutine then 0 else 1) ∧
      a.pinned.length = 0 := by
  obtain ⟨hsize, hpinned⟩ := sizes_ofTokens h
  have hclaims : Token.claims .double = Token.callsRoutine := rfl
  rw [hclaims] at hsize
  refine ⟨?_, hpinned.trans (List.countP_eq_zero.mpr (by simp [Token.pins]))⟩
  rw [hsize]
  cases tokens.getLast?.any Token.callsRoutine <;> rfl

theorem sizes_high {a : Artifact .high} (h : ofTokens scope settings parameter tokens = .ok a) :
    a.arenaSize = tokens.countP (·.kind = .operator) + tokens.countP (·.kind = .call) ∧
      a.pinned.length = tokens.countP (·.kind = .number) +
        tokens.countP (fun t => t.kind = .identifier && t.value ≠ parameter) := by
  obtain ⟨hsize, hpinned⟩ := sizes_ofTokens h
  refine ⟨?_, hpinned.trans (Token.countP_pins_high parameter tokens)⟩
  rw [hsize, Token.countP_claims_high]
  rfl

end Artifact

end Phasor
