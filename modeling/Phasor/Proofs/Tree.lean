import Phasor.Compile

namespace Phasor

theorem Precision.number_eq_ok {p : Precision} {text : String} {z : p.Literal} :
    p.number text = .ok z ↔ p.literal text = .ok z := by
  unfold Precision.number
  rcases p.literal text with e | w
  · cases e <;> simp
  · simp

theorem Scope.constant_eq_ok {s : Scope} {p : Precision} {name : String} {z : p.Literal} :
    s.constant p name = .ok z ↔ ∃ c, s.constant? name = some c ∧ c.at p = z := by
  unfold Scope.constant
  cases s.constant? name <;> simp

theorem Scope.entry_eq_ok {s : Scope} {p : Precision} {name : String} {id : Nat} :
    s.entry p name = .ok id ↔ s.entry? name = some ⟨p, id⟩ := by
  unfold Scope.entry
  rcases s.entry? name with _ | ⟨q, n⟩
  · simp
  · by_cases h : q = p <;> simp [h]

def Error.OfToken (e : Error) : Prop :=
  e ≠ .emptyExpression ∧ (∀ n, e ≠ .unbalancedExpression n) ∧ (∀ name, e ≠ .duplicateFunction name) ∧
    ∀ cause, e ≠ .backend cause

theorem Precision.number_eq_error {p : Precision} {text : String} {e : Error}
    (h : p.number text = .error e) : e.OfToken := by
  unfold Precision.number at h
  split at h <;> simp only [reduceCtorEq, Except.error.injEq] at h <;> subst h <;> simp [Error.OfToken]

theorem Scope.constant_eq_error {s : Scope} {p : Precision} {name : String} {e : Error}
    (h : s.constant p name = .error e) : e.OfToken := by
  unfold Scope.constant at h
  split at h <;> simp only [reduceCtorEq, Except.error.injEq] at h
  subst h
  simp [Error.OfToken]

theorem Scope.entry_eq_error {s : Scope} {p : Precision} {name : String} {e : Error}
    (h : s.entry p name = .error e) : e.OfToken := by
  unfold Scope.entry at h
  split at h
  · split at h <;> simp only [reduceCtorEq, Except.error.injEq] at h
    subst h
    simp [Error.OfToken]
  · simp only [Except.error.injEq] at h
    subst h
    simp [Error.OfToken]

namespace Operator

theorem ofSymbol?_symbol (op : Operator) : ofSymbol? true op.symbol = some op := by
  rcases op with op | op <;> cases op <;> decide

theorem symbol_of_ofSymbol? {extended : Bool} {symbol : String} {op : Operator}
    (h : ofSymbol? extended symbol = some op) : op.symbol = symbol := by
  unfold ofSymbol? at h
  split at h
  · rename_i b hb
    have hs := List.find?_some hb
    simp only [Option.some.injEq] at h
    subst h
    simpa [Operator.symbol] using hs
  · obtain ⟨u, hu, rfl⟩ := Option.map_eq_some_iff.mp h
    have hs := List.find?_some hu
    simp only [Bool.and_eq_true, decide_eq_true_eq] at hs
    exact hs.1

theorem ofSymbol?_conj : ofSymbol? false "conj" = none := by decide

theorem ofSymbol?_of_ne_conj (extended : Bool) {symbol : String} (h : symbol ≠ "conj") :
    ofSymbol? extended symbol = ofSymbol? true symbol := by
  have hu : UnaryOp.ofSymbol? extended symbol = UnaryOp.ofSymbol? true symbol := by
    unfold UnaryOp.ofSymbol?
    congr 1
    funext op
    cases op <;> simp [UnaryOp.symbol, h.symm]
  unfold ofSymbol?
  rw [hu]

end Operator

inductive Tree where
  | number (text : String)
  | identifier (name : String)
  | unary (op : UnaryOp) (t : Tree)
  | binary (op : BinaryOp) (left right : Tree)
  | call (name : String) (t : Tree)

namespace Tree

variable {p : Precision}

def flatten : Tree → List Token
  | number text => [.number text]
  | identifier name => [.identifier name]
  | unary op t => t.flatten ++ [.operator op.symbol]
  | binary op l r => l.flatten ++ r.flatten ++ [.operator op.symbol]
  | call name t => t.flatten ++ [.call name]

def WellFormed (scope : Scope) (p : Precision) (parameter : String) : Tree → Prop
  | number text => ∃ z, p.literal text = .ok z
  | identifier name => name = parameter ∨ ∃ c, scope.constant? name = some c
  | unary _ t => t.WellFormed scope p parameter
  | binary _ l r => l.WellFormed scope p parameter ∧ r.WellFormed scope p parameter
  | call name t => (∃ id, scope.entry? name = some ⟨p, id⟩) ∧ t.WellFormed scope p parameter

def value? (scope : Scope) (parameter : String) (run : Nat → p.Value → Option p.Value) (x : p.Value) :
    Tree → Option p.Value
  | number text => (p.number text).toOption.map p.value
  | identifier name =>
    if name = parameter then some x else (scope.constant p name).toOption.map p.value
  | unary op t => (t.value? scope parameter run x).map (p.unary op)
  | binary op l r => do
    let z ← l.value? scope parameter run x
    let w ← r.value? scope parameter run x
    return p.binary op z w
  | call name t => do
    let id ← (scope.entry p name).toOption
    run id (← t.value? scope parameter run x)

def calls (scope : Scope) (p : Precision) : Tree → List Nat
  | number _ | identifier _ => []
  | unary _ t => t.calls scope p
  | binary _ l r => l.calls scope p ++ r.calls scope p
  | call name t => t.calls scope p ++ (scope.entry p name).toOption.toList

theorem value?_congr (scope : Scope) (parameter : String) {f g : Nat → p.Value → Option p.Value}
    (x : p.Value) (t : Tree) (h : ∀ id ∈ t.calls scope p, f id = g id) :
    t.value? scope parameter f x = t.value? scope parameter g x := by
  induction t with
  | number text => rfl
  | identifier name => rfl
  | unary op t ih => simp only [value?, ih h]
  | binary op l r ihl ihr =>
    simp only [calls, List.mem_append] at h
    simp only [value?, ihl (fun id hid => h id (.inl hid)), ihr (fun id hid => h id (.inr hid))]
  | call name t ih =>
    simp only [calls, List.mem_append] at h
    simp only [value?, ih (fun id hid => h id (.inl hid))]
    rcases he : scope.entry p name with e | id
    · rfl
    · have hid := h id (.inr (by simp [he, Except.toOption]))
      simp only [Except.toOption, Option.bind_eq_bind, Option.bind_some, hid]

theorem WellFormed.value {scope : Scope} {parameter : String} {run : Nat → p.Value → Option p.Value}
    {t : Tree} (h : t.WellFormed scope p parameter) (x : p.Value)
    (hc : ∀ id ∈ t.calls scope p, ∀ z, ∃ w, run id z = some w) :
    ∃ z, t.value? scope parameter run x = some z := by
  induction t with
  | number text =>
    obtain ⟨z, hz⟩ := h
    exact ⟨p.value z, by simp [value?, Precision.number_eq_ok.mpr hz, Except.toOption]⟩
  | identifier name =>
    by_cases hn : name = parameter
    · exact ⟨x, by simp [value?, hn]⟩
    · obtain ⟨c, hc⟩ := h.resolve_left hn
      have hk : scope.constant p name = .ok (c.at p) := Scope.constant_eq_ok.mpr ⟨c, hc, rfl⟩
      exact ⟨p.value (c.at p), by simp [value?, hn, hk, Except.toOption]⟩
  | unary op t ih =>
    obtain ⟨z, hz⟩ := ih h hc
    exact ⟨p.unary op z, by simp [value?, hz]⟩
  | binary op l r ihl ihr =>
    simp only [calls, List.mem_append] at hc
    obtain ⟨z, hz⟩ := ihl h.1 (fun id hid => hc id (.inl hid))
    obtain ⟨w, hw⟩ := ihr h.2 (fun id hid => hc id (.inr hid))
    exact ⟨p.binary op z w, by simp [value?, hz, hw]⟩
  | call name t ih =>
    obtain ⟨⟨id, hid⟩, ht⟩ := h
    have he := Scope.entry_eq_ok.mpr hid
    simp only [calls, List.mem_append, he, Except.toOption, Option.toList_some, List.mem_singleton] at hc
    obtain ⟨z, hz⟩ := ih ht (fun id hid => hc id (.inl hid))
    obtain ⟨w, hw⟩ := hc id (.inr rfl) z
    exact ⟨w, by simp [value?, he, hz, hw, Except.toOption]⟩

def push (scope : Scope) (p : Precision) (extended : Bool) (parameter : String) (stack : List Tree) :
    Token → Except Error (List Tree)
  | .number text => do
    let _ ← p.number text
    return number text :: stack
  | .identifier name =>
    if name = parameter then return identifier name :: stack
    else do
      let _ ← scope.constant p name
      return identifier name :: stack
  | .operator symbol =>
    match Operator.ofSymbol? extended symbol, stack with
    | some (.binary op), r :: l :: rest => return binary op l r :: rest
    | some (.unary op), t :: rest => return unary op t :: rest
    | some _, _ => throw (.stackUnderflow symbol)
    | none, _ => throw (.unknownOperator symbol)
  | .call name => do
    let _ ← scope.entry p name
    match stack with
    | t :: rest => return call name t :: rest
    | [] => throw (.stackUnderflow name)

def pushAll (scope : Scope) (p : Precision) (extended : Bool) (parameter : String) (stack : List Tree)
    (tokens : List Token) : Except Error (List Tree) :=
  tokens.foldlM (push scope p extended parameter) stack

def parse (scope : Scope) (p : Precision) (extended : Bool) (parameter : String) (tokens : List Token) :
    Except Error Tree :=
  if tokens.isEmpty then .error .emptyExpression
  else
    match pushAll scope p extended parameter [] tokens with
    | .ok [t] => .ok t
    | .ok stack => .error (.unbalancedExpression stack.length)
    | .error e => .error e

section Reading

variable {scope : Scope} {extended : Bool} {parameter : String}

theorem pushAll_cons (stack : List Tree) (token : Token) (tokens : List Token) :
    pushAll scope p extended parameter stack (token :: tokens) =
      (push scope p extended parameter stack token).bind
        (fun stack => pushAll scope p extended parameter stack tokens) := by
  simp only [pushAll, List.foldlM_cons]
  rfl

theorem pushAll_append (stack : List Tree) (xs ys : List Token) :
    pushAll scope p extended parameter stack (xs ++ ys) =
      (pushAll scope p extended parameter stack xs).bind
        (fun stack => pushAll scope p extended parameter stack ys) := by
  simp only [pushAll, List.foldlM_append]
  rfl

inductive Accepts (scope : Scope) (p : Precision) (extended : Bool) (parameter : String) :
    List Tree → Token → List Tree → Prop
  | number {stack : List Tree} {text : String} {z : p.Literal} (h : p.number text = .ok z) :
      Accepts scope p extended parameter stack (.number text) (number text :: stack)
  | parameter {stack : List Tree} :
      Accepts scope p extended parameter stack (.identifier parameter) (identifier parameter :: stack)
  | constant {stack : List Tree} {name : String} {z : p.Literal} (hn : name ≠ parameter)
      (h : scope.constant p name = .ok z) :
      Accepts scope p extended parameter stack (.identifier name) (identifier name :: stack)
  | unary {rest : List Tree} {t : Tree} {op : UnaryOp} {symbol : String}
      (h : Operator.ofSymbol? extended symbol = some (.unary op)) :
      Accepts scope p extended parameter (t :: rest) (.operator symbol) (unary op t :: rest)
  | binary {rest : List Tree} {l r : Tree} {op : BinaryOp} {symbol : String}
      (h : Operator.ofSymbol? extended symbol = some (.binary op)) :
      Accepts scope p extended parameter (r :: l :: rest) (.operator symbol) (binary op l r :: rest)
  | call {rest : List Tree} {t : Tree} {name : String} {id : Nat} (h : scope.entry p name = .ok id) :
      Accepts scope p extended parameter (t :: rest) (.call name) (call name t :: rest)

/-- Why a token is refused. Names are looked up before operands are taken. -/
inductive Rejects (scope : Scope) (p : Precision) (extended : Bool) (parameter : String) :
    List Tree → Token → Error → Prop
  | number {stack : List Tree} {text : String} {e : Error} (h : p.number text = .error e) :
      Rejects scope p extended parameter stack (.number text) e
  | constant {stack : List Tree} {name : String} {e : Error} (hn : name ≠ parameter)
      (h : scope.constant p name = .error e) : Rejects scope p extended parameter stack (.identifier name) e
  | operator {stack : List Tree} {symbol : String} (h : Operator.ofSymbol? extended symbol = none) :
      Rejects scope p extended parameter stack (.operator symbol) (.unknownOperator symbol)
  | unary {op : UnaryOp} {symbol : String} (h : Operator.ofSymbol? extended symbol = some (.unary op)) :
      Rejects scope p extended parameter [] (.operator symbol) (.stackUnderflow symbol)
  | binary {stack : List Tree} {op : BinaryOp} {symbol : String}
      (h : Operator.ofSymbol? extended symbol = some (.binary op)) (hs : stack.length < 2) :
      Rejects scope p extended parameter stack (.operator symbol) (.stackUnderflow symbol)
  | entry {stack : List Tree} {name : String} {e : Error} (h : scope.entry p name = .error e) :
      Rejects scope p extended parameter stack (.call name) e
  | call {name : String} {id : Nat} (h : scope.entry p name = .ok id) :
      Rejects scope p extended parameter [] (.call name) (.stackUnderflow name)

theorem push_cases (scope : Scope) (p : Precision) (extended : Bool) (parameter : String)
    (stack : List Tree) (token : Token) :
    (∃ stack', push scope p extended parameter stack token = .ok stack' ∧
      Accepts scope p extended parameter stack token stack') ∨
    ∃ e, push scope p extended parameter stack token = .error e ∧
      Rejects scope p extended parameter stack token e := by
  cases token with
  | number text =>
    rcases hz : p.number text with e | z
    · exact .inr ⟨e, by simp [push, hz, bind, Except.bind], .number hz⟩
    · exact .inl ⟨_, by simp only [push, hz]; rfl, .number hz⟩
  | identifier name =>
    by_cases hn : name = parameter
    · subst hn
      exact .inl ⟨_, by simp only [push, ↓reduceIte]; rfl, .parameter⟩
    · rcases hz : scope.constant p name with e | z
      · exact .inr ⟨e, by simp [push, hn, hz, bind, Except.bind], .constant hn hz⟩
      · exact .inl ⟨_, by simp only [push, hn, ↓reduceIte, hz]; rfl, .constant hn hz⟩
  | operator symbol =>
    rcases hop : Operator.ofSymbol? extended symbol with _ | (op | op)
    · exact .inr ⟨_, by simp only [push, hop]; rfl, .operator hop⟩
    · rcases stack with _ | ⟨r, _ | ⟨l, rest⟩⟩
      · exact .inr ⟨_, by simp only [push, hop]; rfl, .binary hop (by simp)⟩
      · exact .inr ⟨_, by simp only [push, hop]; rfl, .binary hop (by simp)⟩
      · exact .inl ⟨_, by simp only [push, hop]; rfl, .binary hop⟩
    · rcases stack with _ | ⟨t, rest⟩
      · exact .inr ⟨_, by simp only [push, hop]; rfl, .unary hop⟩
      · exact .inl ⟨_, by simp only [push, hop]; rfl, .unary hop⟩
  | call name =>
    rcases hz : scope.entry p name with e | id
    · exact .inr ⟨e, by simp [push, hz, bind, Except.bind], .entry hz⟩
    · rcases stack with _ | ⟨t, rest⟩
      · exact .inr ⟨_, by simp only [push, hz]; rfl, .call hz⟩
      · exact .inl ⟨_, by simp only [push, hz]; rfl, .call hz⟩

theorem accepts_of_push {stack stack' : List Tree} {token : Token}
    (h : push scope p extended parameter stack token = .ok stack') :
    Accepts scope p extended parameter stack token stack' := by
  rcases push_cases scope p extended parameter stack token with ⟨s, hs, ha⟩ | ⟨e, he, -⟩
  · rw [hs] at h
    exact Except.ok.inj h ▸ ha
  · rw [he] at h
    cases h

theorem rejects_of_push {stack : List Tree} {token : Token} {e : Error}
    (h : push scope p extended parameter stack token = .error e) :
    Rejects scope p extended parameter stack token e := by
  rcases push_cases scope p extended parameter stack token with ⟨s, hs, -⟩ | ⟨e', he, hr⟩
  · rw [hs] at h
    cases h
  · rw [he] at h
    exact Except.error.inj h ▸ hr

theorem Accepts.flatten {stack stack' : List Tree} {token : Token}
    (h : Accepts scope p extended parameter stack token stack') :
    ∃ t rest operands, stack' = t :: rest ∧ stack = operands ++ rest ∧
      (operands.reverse.flatMap flatten) ++ [token] = t.flatten ∧
      ((∀ u ∈ operands, u.WellFormed scope p parameter) → t.WellFormed scope p parameter) := by
  cases h with
  | number hz => exact ⟨_, stack, [], rfl, rfl, rfl, fun _ => ⟨_, Precision.number_eq_ok.mp hz⟩⟩
  | parameter => exact ⟨_, stack, [], rfl, rfl, rfl, fun _ => .inl rfl⟩
  | constant hn hz =>
    obtain ⟨c, hc, _⟩ := Scope.constant_eq_ok.mp hz
    exact ⟨_, stack, [], rfl, rfl, rfl, fun _ => .inr ⟨c, hc⟩⟩
  | @unary rest t op symbol hop =>
    have hs := Operator.symbol_of_ofSymbol? hop
    refine ⟨_, rest, [t], rfl, rfl, ?_, fun hw => hw t (by simp)⟩
    simp [Tree.flatten, ← hs, Operator.symbol]
  | @binary rest l r op symbol hop =>
    have hs := Operator.symbol_of_ofSymbol? hop
    refine ⟨_, rest, [r, l], rfl, rfl, ?_, fun hw => ⟨hw l (by simp), hw r (by simp)⟩⟩
    simp [Tree.flatten, ← hs, Operator.symbol]
  | @call rest t name id hid =>
    refine ⟨_, rest, [t], rfl, rfl, by simp [Tree.flatten], fun hw => ⟨⟨id, ?_⟩, hw t (by simp)⟩⟩
    exact Scope.entry_eq_ok.mp hid

theorem push_ne_nil {stack stack' : List Tree} {token : Token}
    (h : push scope p extended parameter stack token = .ok stack') : stack' ≠ [] := by
  obtain ⟨t, rest, _, rfl, _⟩ := (accepts_of_push h).flatten
  simp

theorem pushAll_ne_nil {stack stack' : List Tree} {tokens : List Token}
    (h : pushAll scope p extended parameter stack tokens = .ok stack') (hne : stack ≠ [] ∨ tokens ≠ []) :
    stack' ≠ [] := by
  induction tokens generalizing stack with
  | nil =>
    simp only [pushAll, List.foldlM_nil, pure, Except.pure, Except.ok.injEq] at h
    subst h
    simpa using hne
  | cons token tokens ih =>
    rw [pushAll_cons] at h
    rcases hp : push scope p extended parameter stack token with e | next
    · simp [hp, Except.bind] at h
    · rw [hp] at h
      exact ih h (.inl (push_ne_nil hp))

theorem pushAll_sound {stack stack' : List Tree} {tokens : List Token}
    (h : pushAll scope p extended parameter stack tokens = .ok stack')
    (hw : ∀ u ∈ stack, u.WellFormed scope p parameter) :
    (∀ u ∈ stack', u.WellFormed scope p parameter) ∧
      stack'.reverse.flatMap flatten = stack.reverse.flatMap flatten ++ tokens := by
  induction tokens generalizing stack with
  | nil =>
    simp only [pushAll, List.foldlM_nil, pure, Except.pure, Except.ok.injEq] at h
    subst h
    exact ⟨hw, by simp⟩
  | cons token tokens ih =>
    rw [pushAll_cons] at h
    rcases hp : push scope p extended parameter stack token with e | next
    · simp [hp, Except.bind] at h
    · rw [hp] at h
      obtain ⟨t, rest, operands, rfl, rfl, hf, ht⟩ := (accepts_of_push hp).flatten
      have hn : ∀ u ∈ t :: rest, u.WellFormed scope p parameter := by
        intro u hu
        rcases List.mem_cons.mp hu with rfl | hu
        · exact ht (fun v hv => hw v (List.mem_append_left _ hv))
        · exact hw u (List.mem_append_right _ hu)
      obtain ⟨hs, he⟩ := ih h hn
      refine ⟨hs, ?_⟩
      rw [he, List.reverse_cons, List.flatMap_append, List.flatMap_singleton, ← hf]
      simp

theorem pushAll_flatten {t : Tree} (h : t.WellFormed scope p parameter) (stack : List Tree) :
    pushAll scope p true parameter stack t.flatten = .ok (t :: stack) := by
  have hop (op : Operator) := Operator.ofSymbol?_symbol op
  induction t generalizing stack with
  | number text =>
    obtain ⟨z, hz⟩ := h
    simp [pushAll, flatten, push, Precision.number_eq_ok.mpr hz, bind, Except.bind, pure, Except.pure]
  | identifier name =>
    by_cases hn : name = parameter
    · simp [pushAll, flatten, push, hn, bind, Except.bind, pure, Except.pure]
    · obtain ⟨c, hc⟩ := h.resolve_left hn
      have hk : scope.constant p name = .ok (c.at p) := Scope.constant_eq_ok.mpr ⟨c, hc, rfl⟩
      simp [pushAll, flatten, push, hn, hk, bind, Except.bind, pure, Except.pure]
  | unary op t ih =>
    rw [flatten, pushAll_append, ih h stack]
    have hu := hop (.unary op)
    simp only [Operator.symbol] at hu
    simp [pushAll, push, hu, bind, Except.bind, pure, Except.pure]
  | binary op l r ihl ihr =>
    rw [flatten, pushAll_append, pushAll_append, ihl h.1 stack, Except.bind, ihr h.2 (l :: stack)]
    have hb := hop (.binary op)
    simp only [Operator.symbol] at hb
    simp [pushAll, push, hb, bind, Except.bind, pure, Except.pure]
  | call name t ih =>
    obtain ⟨⟨id, hid⟩, ht⟩ := h
    rw [flatten, pushAll_append, ih ht stack]
    simp [pushAll, push, Scope.entry_eq_ok.mpr hid, bind, Except.bind, pure, Except.pure]

theorem flatten_ne_nil (t : Tree) : t.flatten ≠ [] := by
  cases t <;> simp [flatten]

theorem pushAll_of_parse {tokens : List Token} {t : Tree} (h : parse scope p extended parameter tokens = .ok t) :
    pushAll scope p extended parameter [] tokens = .ok [t] := by
  unfold parse at h
  split at h
  · cases h
  · split at h
    · rename_i u hs
      rw [hs, Except.ok.inj h]
    · cases h
    · cases h

theorem parse_eq_ok {tokens : List Token} {t : Tree} :
    parse scope p true parameter tokens = .ok t ↔
      t.WellFormed scope p parameter ∧ t.flatten = tokens := by
  constructor
  · intro h
    obtain ⟨hw, hf⟩ := pushAll_sound (pushAll_of_parse h) (by simp)
    exact ⟨hw t (by simp), by simpa using hf⟩
  · rintro ⟨hw, rfl⟩
    unfold parse
    rw [pushAll_flatten hw, if_neg (by simpa using flatten_ne_nil t)]

theorem Rejects.ofToken {stack : List Tree} {token : Token} {e : Error}
    (h : Rejects scope p extended parameter stack token e) : e.OfToken := by
  cases h with
  | number hz => exact Precision.number_eq_error hz
  | constant hn hz => exact Scope.constant_eq_error hz
  | entry hid => exact Scope.entry_eq_error hid
  | operator hop => simp [Error.OfToken]
  | unary hop => simp [Error.OfToken]
  | binary hop hs => simp [Error.OfToken]
  | call hid => simp [Error.OfToken]

theorem pushAll_eq_error {stack : List Tree} {tokens : List Token} {e : Error}
    (h : pushAll scope p extended parameter stack tokens = .error e) : e.OfToken := by
  induction tokens generalizing stack with
  | nil => simp [pushAll, pure, Except.pure] at h
  | cons token tokens ih =>
    rw [pushAll_cons] at h
    rcases hp : push scope p extended parameter stack token with e' | next
    · simp only [hp, Except.bind, Except.error.injEq] at h
      exact h ▸ (rejects_of_push hp).ofToken
    · rw [hp] at h
      exact ih h

theorem parse_of_prefix_error {before : List Token} {e : Error}
    (h : pushAll scope p extended parameter [] before = .error e) (after : List Token) :
    parse scope p extended parameter (before ++ after) = .error e := by
  have hne : before ++ after ≠ [] := by
    intro he
    obtain ⟨rfl, -⟩ := List.append_eq_nil_iff.mp he
    simp [pushAll, pure, Except.pure] at h
  unfold parse
  rw [if_neg (by simpa using hne), pushAll_append, h]
  rfl

theorem parse_ne_emptyExpression {tokens : List Token} (hne : tokens ≠ []) :
    parse scope p extended parameter tokens ≠ .error .emptyExpression := by
  intro h
  unfold parse at h
  rw [if_neg (by simpa using hne)] at h
  split at h
  · simp at h
  · simp at h
  · rename_i e hs
    exact (pushAll_eq_error hs).1 (Except.error.inj h)

theorem parse_ne_unbalanced_zero (tokens : List Token) :
    parse scope p extended parameter tokens ≠ .error (.unbalancedExpression 0) := by
  intro h
  unfold parse at h
  split at h
  · simp at h
  · rename_i hne
    split at h
    · simp at h
    · rename_i stack _ hs
      simp only [Except.error.injEq, Error.unbalancedExpression.injEq, List.length_eq_zero_iff] at h
      exact pushAll_ne_nil hs (.inr (by simpa using hne)) h
    · rename_i e hs
      exact (pushAll_eq_error hs).2.1 0 (Except.error.inj h)

theorem parse_ne_duplicateFunction (tokens : List Token) (name : String) :
    parse scope p extended parameter tokens ≠ .error (.duplicateFunction name) := by
  intro h
  unfold parse at h
  split at h
  · simp at h
  · split at h
    · simp at h
    · simp at h
    · rename_i e hs
      exact (pushAll_eq_error hs).2.2.1 name (Except.error.inj h)

theorem parse_ne_backend (tokens : List Token) (cause : BackendError) :
    parse scope p extended parameter tokens ≠ .error (.backend cause) := by
  intro h
  unfold parse at h
  split at h
  · simp at h
  · split at h
    · simp at h
    · simp at h
    · rename_i e hs
      exact (pushAll_eq_error hs).2.2.2 cause (Except.error.inj h)

theorem push_of_ne_conj {token : Token} (h : token ≠ .operator "conj") (stack : List Tree) :
    push scope p extended parameter stack token = push scope p true parameter stack token := by
  cases token with
  | operator symbol =>
    have hs : symbol ≠ "conj" := fun he => h (by rw [he])
    simp only [push, Operator.ofSymbol?_of_ne_conj extended hs]
  | _ => rfl

theorem pushAll_of_not_mem_conj {tokens : List Token} (h : .operator "conj" ∉ tokens)
    (stack : List Tree) :
    pushAll scope p extended parameter stack tokens = pushAll scope p true parameter stack tokens := by
  induction tokens generalizing stack with
  | nil => rfl
  | cons token tokens ih =>
    simp only [List.mem_cons, not_or] at h
    simp only [pushAll_cons, push_of_ne_conj (Ne.symm h.1), ih h.2]

theorem push_conj (stack : List Tree) :
    push scope p false parameter stack (.operator "conj") = .error (.unknownOperator "conj") := by
  simp only [push, Operator.ofSymbol?_conj]
  rfl

theorem parse_extended {tokens : List Token} {t : Tree}
    (h : parse scope p extended parameter tokens = .ok t) :
    parse scope p true parameter tokens = .ok t := by
  cases extended with
  | true => exact h
  | false =>
    by_cases hc : Token.operator "conj" ∈ tokens
    · obtain ⟨xs, ys, rfl⟩ := List.append_of_mem hc
      unfold parse at h
      rw [if_neg (by simp), pushAll_append] at h
      rcases hx : pushAll scope p false parameter [] xs with e | stack
      · simp [hx, Except.bind] at h
      · simp [hx, Except.bind, pushAll_cons, push_conj] at h
    · unfold parse at *
      rwa [← pushAll_of_not_mem_conj hc]

end Reading

end Tree

end Phasor
