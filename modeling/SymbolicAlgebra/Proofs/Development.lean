import SymbolicAlgebra.Proofs.Registration
import SymbolicAlgebra.Proofs.Steps
import SymbolicAlgebra.Proofs.Structure

/-!
# Proofs/Development — what building expressions brings about in the table of the moment

Building an expression adds to the pool and to the journal, meets names and narrows types.  What is said
of an expression may depend on the table it is built in, so it has to survive what becomes of the table.
A *development* is a property of kernels with properties of expressions in tables that go along with
this: `Development.box`, `Development.canonicalize` and the lemmas before them.  Where an operator is
applied to operands that were checked, the development is told the check that was run.
-/

namespace SymbolicAlgebra

/-- Whether a definition holds the operands of its name back. -/
def holdsBack : Option Definition → Bool
  | some (.function d) => d.isLazy.truthy
  | _ => false

/-- Whether a name stands for a function that holds its operands back. -/
def DefinitionTable.holdsOperands (t : DefinitionTable) (f : String) : Bool :=
  holdsBack ((t.number? f).bind t.get?)

namespace Kernel

/-! ## Checked operands

A check keeps an operand or puts an error in its place, and adds errors for what is missing. -/

section Checks

variable {E : Fault → Prop} {k : Kernel}

theorem infer_returns (e : Expr) (type : TypeName) :
    Yields E (infer e type) k fun _ _ => True :=
  (yields_infer_cases e type k).imp (fun _ h => h.elim) fun _ _ _ => trivial

theorem inferAll_returns (ops : List Expr) (type : TypeName) (skip : Bool) :
    Yields E (inferAll ops type skip) k fun _ _ => True := by
  refine yields_forM (P := fun _ => True) trivial fun e k _ => ?_
  split
  next =>
    split
    next =>
      exact yields_forM (P := fun _ => True) trivial fun x k _ =>
        (infer_returns x type).bind fun _ _ _ => trivial
    next => exact trivial
  next => exact (infer_returns e type).bind fun _ _ _ => trivial

theorem inferParameters_returns (threadable : Bool) (ops : List Expr) (params : List TypeName) :
    Yields E (inferParameters threadable ops params) k fun _ _ => True := by
  refine yields_forM (P := fun _ => True) trivial ?_
  rintro ⟨e, type⟩ k -
  simp only
  split
  next => exact (infer_returns e type).bind fun _ _ _ => trivial
  next => exact trivial

/-- What is put in the place of missing and superfluous operands. -/
theorem drop_fit (count : Nat) (ops : List Expr) :
    (fit count ops).drop (min count ops.length) =
      List.replicate (count - ops.length) missing ++ (ops.drop count).map unexpected := by
  rw [fit, List.append_assoc, List.drop_left' (by simp)]

/-- The operands of a numeric function, checked and brought to a number. -/
def checkedNumbers (t : DefinitionTable) (count : Nat) (ops : List Expr) : List Expr :=
  ((ops.take count).map (checkNumber t)).map (·.1) ++ (fit count ops).drop (min count ops.length)

/-- Operands checked one by one against a signature, with errors for those that are missing and those
that are one too many. -/
def checkedParameters (t : DefinitionTable) (s : Signature) (held threadable : Bool)
    (ops : List Expr) : List Expr :=
  ((ops.zip (parametersFor s ops.length)).map fun q =>
      checkParameter t held threadable q.1 q.2).map (·.1) ++
    List.replicate (s.required.length - ops.length) missing ++
      (ops.drop (parametersFor s ops.length).length).map unexpected

/-- What a check puts in the place of an operand. -/
inductive IsObjection : Expr → Prop
  | missing : IsObjection missing
  | unexpected (e : Expr) : IsObjection (unexpected e)
  | mismatch (expected actual : TypeName) {e : Expr} (he : e.isValid = true) :
      IsObjection (mismatch expected actual e)
  | impure {e : Expr} (he : e.isValid = true) : IsObjection (impure e)

theorem IsObjection.isError {x : Expr} (h : IsObjection x) : x.isError = true := by
  cases h <;> rfl

/-- A list in which operands were replaced by errors, and errors were added. -/
structure Refused (ops rs : List Expr) : Prop where
  mem : ∀ x ∈ rs, x ∈ ops ∨ x.isError = true
  length : ops.length ≤ rs.length

theorem Refused.refl (ops : List Expr) : Refused ops ops := ⟨fun _ h => .inl h, le_rfl⟩

theorem checkNumber_mem (t : DefinitionTable) (e : Expr) :
    (checkNumber t e).1 = e ∨ IsObjection (checkNumber t e).1 := by
  rw [checkNumber]
  split
  next => exact .inl rfl
  next hvalid =>
    split
    next => exact .inl rfl
    next => exact .inr (.mismatch _ _ (by simpa using hvalid))

theorem checkParameter_mem (t : DefinitionTable) (held threadable : Bool) (e : Expr)
    (type : TypeName) : (checkParameter t held threadable e type).1 = e ∨
      IsObjection (checkParameter t held threadable e type).1 := by
  cases hvalid : e.isValid with
  | false =>
      unfold checkParameter
      rw [hvalid]
      split
      next => exact .inl rfl
      next => exact .inl rfl
  | true =>
      unfold checkParameter
      simp only
      repeat' split
      all_goals first
        | exact .inl rfl
        | exact .inr (.mismatch _ _ hvalid)

/-- The operands that a check of numbers leaves are operands, or what it has against them. -/
theorem mem_checkedNumbers {t : DefinitionTable} {count : Nat} {ops : List Expr} {x : Expr}
    (hx : x ∈ checkedNumbers t count ops) : x ∈ ops ∨ IsObjection x := by
  rcases List.mem_append.1 hx with hx | hx
  · obtain ⟨y, hy, rfl⟩ := List.mem_map.1 hx
    obtain ⟨e, he, rfl⟩ := List.mem_map.1 hy
    exact (checkNumber_mem t e).imp_left fun h => by
      rw [h]
      exact List.mem_of_mem_take he
  · rw [drop_fit, List.mem_append] at hx
    rcases hx with hx | hx
    · rw [List.eq_of_mem_replicate hx]
      exact .inr .missing
    · obtain ⟨e, -, rfl⟩ := List.mem_map.1 hx
      exact .inr (.unexpected e)

theorem refused_checkedNumbers (t : DefinitionTable) (count : Nat) (ops : List Expr) :
    Refused ops (checkedNumbers t count ops) where
  mem _ hx := (mem_checkedNumbers hx).imp_right IsObjection.isError
  length := by
    simp [checkedNumbers, fit]
    omega

/-- The operands that a check against a signature leaves are operands, or what it has against them. -/
theorem mem_checkedParameters {t : DefinitionTable} {s : Signature} {held threadable : Bool}
    {ops : List Expr} {x : Expr} (hx : x ∈ checkedParameters t s held threadable ops) :
    x ∈ ops ∨ IsObjection x := by
  rw [checkedParameters, List.mem_append, List.mem_append] at hx
  rcases hx with (hx | hx) | hx
  · obtain ⟨y, hy, rfl⟩ := List.mem_map.1 hx
    obtain ⟨⟨e, type⟩, he, rfl⟩ := List.mem_map.1 hy
    exact (checkParameter_mem t held threadable e type).imp_left fun h => by
      rw [h]
      exact (List.of_mem_zip he).1
  · rw [List.eq_of_mem_replicate hx]
    exact .inr .missing
  · obtain ⟨e, -, rfl⟩ := List.mem_map.1 hx
    exact .inr (.unexpected e)

theorem refused_checkedParameters (t : DefinitionTable) (s : Signature) (held threadable : Bool)
    (ops : List Expr) : Refused ops (checkedParameters t s held threadable ops) where
  mem _ hx := (mem_checkedParameters hx).imp_right IsObjection.isError
  length := by
    simp [checkedParameters]
    omega

/-- **Operands of numeric functions are kept or replaced by errors.** -/
theorem yields_checkNumeric_refused (ops : List Expr) (count : Option Nat) :
    Yields E (checkNumeric ops count none) k fun rs _ => Refused (Expr.flatten none ops) rs := by
  unfold checkNumeric
  simp only
  refine Yields.bind (P := fun _ _ => True) trivial fun t k _ => ?_
  refine Yields.bind (P := fun _ _ => True) trivial fun strict k _ => ?_
  split
  next => exact (inferAll_returns _ _ true).bind fun _ _ _ => Yields.pure (.refl _)
  next =>
    have hrefused := fun count => refused_checkedNumbers t count (Expr.flatten none ops)
    split
    next => exact (inferAll_returns _ _ false).bind fun _ _ _ => Yields.pure (hrefused _)
    next => exact Yields.pure (hrefused _)

/-- **Operands against a signature are kept or replaced by errors.** -/
theorem yields_checkSignature_refused (ops : List Expr) (s : Signature) (held threadable : Bool) :
    Yields E (checkSignature ops s held threadable) k fun o _ => Refused ops (o.getD ops) := by
  unfold checkSignature
  refine Yields.bind (P := fun _ _ => True) trivial fun strict k _ => ?_
  split
  next => exact Yields.pure (.refl ops)
  next =>
    refine Yields.bind (P := fun _ _ => True) trivial fun t k _ => ?_
    simp only
    split
    next =>
      split
      next =>
        exact (inferParameters_returns threadable ops _).bind fun _ _ _ => Yields.pure (.refl ops)
      next => exact Yields.pure (.refl ops)
    next => exact Yields.pure (refused_checkedParameters t s held threadable ops)

end Checks

/-! ## Developments -/

/-- The operators that forms of their own apply. -/
def formOperators : List String := ["Negate", "Rational", "Complex"]

end Kernel

/-- A table, and what it may become when something is built: names are met, types are narrowed. -/
inductive DefinitionTable.Grown (t : DefinitionTable) : DefinitionTable → Prop
  | refl : Grown t t
  | met {t' name d} (h : Grown t t') (hname : t'.contains name = false)
      (hd : Definition.IsMet name d) : Grown t (t'.register name d)
  | narrowed {t' i d type} (h : Grown t t') (hd : t'.get? i = some d)
      (htype : d.accepts type = true) : Grown t (t'.modify i fun _ => d.narrow type)

theorem DefinitionTable.Grown.trans {t₁ t₂ t₃ : DefinitionTable} (h : t₁.Grown t₂)
    (h' : t₂.Grown t₃) : t₁.Grown t₃ := by
  induction h' with
  | refl => exact h
  | met _ hname hd ih => exact ih.met hname hd
  | narrowed _ hd htype ih => exact ih.narrowed hd htype

namespace DefinitionTable

variable {t t' : DefinitionTable}

theorem holdsOperands_of_find? {f : String} {d : Definition} (h : t.find? f = some d) :
    t.holdsOperands f = holdsBack (some d) := by
  rw [holdsOperands, ← h, find?]

/-- A name that has a registration keeps it. -/
theorem Grown.number? (h : t.Grown t') {n : String} (hn : t.contains n = true) :
    t'.number? n = t.number? n := by
  induction h with
  | refl => rfl
  | @met t₁ name d _ hname _ ih =>
      have hne : n ≠ name := by
        rintro rfl
        rw [DefinitionTable.contains, ih, ← DefinitionTable.contains, hn] at hname
        cases hname
      rw [number?_register, if_neg hne, ih]
  | narrowed _ _ _ ih => rw [number?_modify, ih]

theorem Grown.contains (h : t.Grown t') {n : String} (hn : t.contains n = true) :
    t'.contains n = true := by
  rw [DefinitionTable.contains, h.number? hn]
  exact hn

/-- A registration is at most narrowed, and that once. -/
theorem Grown.get? (h : t.Grown t') {i : Nat} {d : Definition} (hd : t.get? i = some d) :
    ∃ d', t'.get? i = some d' ∧
      (d' = d ∨ ∃ type, d.accepts type = true ∧ d' = d.narrow type) := by
  induction h with
  | refl => exact ⟨d, hd, .inl rfl⟩
  | met _ _ _ ih =>
      obtain ⟨d', hd', h⟩ := ih
      exact ⟨d', by rw [get?_register, if_neg (ne_size_of_get? hd'), hd'], h⟩
  | @narrowed t₁ j x type _ hx htype ih =>
      obtain ⟨d', hd', h⟩ := ih
      rw [get?_narrow hx]
      split
      next hj =>
        subst hj
        rw [hx] at hd'
        cases hd'
        rcases h with rfl | ⟨type', haccepts, rfl⟩
        · exact ⟨_, rfl, .inr ⟨type, htype, rfl⟩⟩
        · have hsettled := Definition.isSettled_narrow haccepts
          rw [((Definition.accepts_iff _ _).1 htype).2.1] at hsettled
          cases hsettled
      next => exact ⟨d', hd', h⟩

/-- A function keeps its definition, up to its result. -/
theorem Grown.function? (h : t.Grown t') {f : String} {d : FunctionDefinition}
    (hd : t.find? f = some (.function d)) : ∃ result,
      t'.find? f = some (.function { d with signature := { d.signature with result } }) := by
  obtain ⟨i, hi, hget⟩ := Option.bind_eq_some_iff.1 hd
  obtain ⟨d', hd', h'⟩ := h.get? hget
  have hi' : t'.number? f = some i := (h.number? (by rw [DefinitionTable.contains, hi]; rfl)).trans hi
  rw [DefinitionTable.find?, hi', Option.bind_some, hd']
  rcases h' with rfl | ⟨type, -, rfl⟩
  · exact ⟨_, rfl⟩
  · exact ⟨_, rfl⟩

end DefinitionTable

namespace Kernel

/-- The check of the operands that a function is applied to. -/
def checkOperands (d : FunctionDefinition) (ops : List Expr) : Action (List Expr) := do
  if d.numeric.truthy then
    let count := if d.signature.isFixedArity then some d.signature.required.length else none
    checkNumeric ops count none
  else
    let checked ← checkSignature ops d.signature d.isLazy.truthy d.threadable.truthy
    return checked.getD ops

/-- The operator that a function splices into its operands. -/
def splices (f : String) (d : FunctionDefinition) : Option String :=
  if d.associative.truthy then some f else none

theorem applyChecked_eq (f : String) (d : FunctionDefinition) (ops : List Expr) :
    applyChecked f d ops = (do apply f (← checkOperands d (Expr.flatten (splices f d) ops))) := by
  unfold applyChecked checkOperands splices
  simp only
  split
  next => rfl
  next => simp only [bind_assoc, pure_bind]

/-- A property of kernels, and properties of expressions in canonical form and as they stand in a table,
that building keeps to. -/
structure Development where
  Holds : Kernel → Prop
  /-- What is built in canonical form. -/
  Built : DefinitionTable → Expr → Prop
  /-- What is built or used as it stands. -/
  Stands : DefinitionTable → Expr → Prop
  /-- What an operator that holds its operands back may be applied to. -/
  Keeps : Expr → Prop
  /-- The shapes that are built, and what occurs in them. -/
  Reads : Raw → Prop
  Names : String → Prop
  Heads : String → Prop
  Admits : Number → Prop
  /-- Whether an operator may hold its operands back, and whether it may not. -/
  Mode : String → Bool → Prop
  stands : ∀ {t e}, Built t e → Stands t e
  built : ∀ {t e}, Stands t e → e.isCanonical = true → Built t e
  keeps : ∀ {k k' r e}, Reads r → (hold r).run.run k = (.ok e, k') → Keeps e
  -- the shapes
  name : ∀ {n}, Reads (.name n) → Names n
  truth : ∀ {b}, Reads (.bool b) → Names (if b then "True" else "False")
  head : ∀ {f args}, Reads (.list (.name f :: args)) → f ≠ "Error" → Heads f
  item : ∀ {f args}, Reads (.list (.name f :: args)) → ∀ r ∈ args, Reads r
  literal : ∀ {r p v}, Reads r → Definition.numberOf p r = .ok v → Admits v
  -- the numbers
  zero : Admits .zero
  neg : ∀ {v w}, Admits v → v.neg = .ok w → Admits w
  div : ∀ {v w x}, Admits v → Admits w → v.isExact = true → w.isExact = true → v.div w = .ok x → Admits x
  parts : ∀ {x y}, Admits (.real x) → Admits (.real y) → Admits (.ofParts x y)
  number : ∀ {t v}, Admits v → Built t (.number v)
  admits : ∀ {t v}, Built t (.number v) → Admits v
  -- the other expressions
  error : ∀ {t e}, e.isError = true → Built t e
  wildcard : ∀ {t n}, Names n → Expr.isWildcardName n = true → Built t (.symbol n none true)
  symbol : ∀ {k n}, Holds k → Names n → Expr.isWildcardName n = false → k.table.contains n = true →
    Built k.table (.symbol n (k.table.number? n) true)
  heldSymbol : ∀ {k n}, Holds k → Names n → Expr.isWildcardName n = false →
    Stands k.table (.symbol n (k.table.number? n) false)
  heldApplication : ∀ {k f ops}, Holds k → Heads f → (∀ e ∈ ops, Stands k.table e) →
    Stands k.table (.application f ops (k.table.functionNumber? f) false)
  /-- An operator that was no function when its operands were built. -/
  plain : ∀ {k₁ k f ops}, Holds k₁ → Holds k → k₁.table.Grown k.table → Heads f →
    (Expr.isWildcardName f = true ∨
      k₁.table.contains f = true ∧ k₁.table.functionNumber? f = none) →
    (∀ e ∈ ops, Built k.table e) → Built k.table (.application f ops (k.table.functionNumber? f) true)
  /-- A function that holds its operands back. -/
  lazy : ∀ {k f d ops}, Holds k → Heads f → Expr.isWildcardName f = false → Mode f true →
    k.table.find? f = some (.function d) → d.isLazy.truthy = true → (∀ e ∈ ops, Stands k.table e) →
    (∀ e ∈ ops, Keeps e) → Built k.table (.application f ops (k.table.functionNumber? f) true)
  /-- A function whose operands were checked, after its form of its own, if any, gave nothing. -/
  checked : ∀ {k₀ k₁ k f d ops rs}, Holds k₀ → Holds k₁ → Holds k →
    k₀.table.Grown k₁.table → k₁.table.Grown k.table → Heads f → Expr.isWildcardName f = false →
    k₀.table.find? f = some (.function d) → d.isLazy.truthy = false →
    (∀ form, d.canonical = some form → ∃ k', Holds k' ∧ (∀ e ∈ ops, Built k'.table e) ∧
      (buildForm form ops).run.run k' = (.ok none, k₁)) →
    (∀ e ∈ ops, Built k₁.table e) →
    (checkOperands d (Expr.flatten (splices f d) ops)).run.run k₁ = (.ok rs, k) →
    (∀ e ∈ rs, Built k.table e) → Built k.table (.application f rs (k.table.functionNumber? f) true)
  /-- A negation that remains one. -/
  negated : ∀ {k₁ k ops x rest}, Holds k₁ → Holds k → k₁.table.Grown k.table →
    (∀ e ∈ ops, Built k₁.table e) →
    (checkNumeric ops (some 1) none).run.run k₁ = (.ok (x :: rest), k) →
    (∀ e ∈ x :: rest, Built k.table e) → x.isNumber = false →
    (x.operator == "Negate" && x.isValid) = false →
    Built k.table (.application "Negate" (x :: rest) (k.table.functionNumber? "Negate") true)
  /-- A quotient or a pair that remains one. -/
  paired : ∀ {k₁ k f ops a b}, Holds k₁ → Holds k → k₁.table.Grown k.table →
    (∀ e ∈ ops, Built k₁.table e) →
    (checkNumeric ops (some 2) none).run.run k₁ = (.ok [a, b], k) →
    (∀ e ∈ [a, b], Built k.table e) →
    (f = "Rational" ∧ (∀ n m, a = .number n → b = .number m → (n.isExact && m.isExact) = false) ∨
      f = "Complex" ∧ ∀ x y, a = .number (.real x) → b ≠ .number (.real y)) →
    Built k.table (.application f [a, b] (k.table.functionNumber? f) true)
  -- the parts
  operand : ∀ {t f ops d c}, Mode f false → Built t (.application f ops d c) → ∀ e ∈ ops, Built t e
  heldOperand : ∀ {t f ops d c}, Stands t (.application f ops d c) → ∀ e ∈ ops, Stands t e
  mode : ∀ {k}, Holds k → ∀ f, Mode f (k.table.holdsOperands f)
  sequence : Mode "Sequence" false
  negate : Mode "Negate" false
  -- the kernel
  pooling : ∀ {k e}, Holds k → Built k.table e → Holds (k.pooling e)
  pooled : ∀ {k e x}, Holds k → Built k.table e → x ∈ k.pool → e.same x = true → Built k.table x
  noted : ∀ {k} journal, Holds k → Holds { k with journal }
  narrowed : ∀ {k e type i d}, Holds k → Stands k.table e →
    k.table.narrowable? e type = some (i, d) →
    Holds { k with table := k.table.modify i fun _ => d.narrow type } ∧
      (∀ x, Built k.table x → Built (k.table.modify i fun _ => d.narrow type) x) ∧
      ∀ x, Stands k.table x → Stands (k.table.modify i fun _ => d.narrow type) x
  met : ∀ {k name d}, Holds k → k.table.contains name = false →
    (Names name ∧ d = .symbol (.met name) ∨ Heads name ∧ d = .function (.met name)) →
    Expr.isWildcardName name = false →
    Holds { k with table := k.table.register name d } ∧
      (∀ x, Built k.table x → Built (k.table.register name d) x) ∧
      ∀ x, Stands k.table x → Stands (k.table.register name d) x

namespace Development

variable (D : Development) {k k₁ k₂ : Kernel} {α β : Type}

/-- A kernel, and one that was developed from it. -/
structure From (k k' : Kernel) : Prop where
  holds : D.Holds k'
  built : ∀ e, D.Built k.table e → D.Built k'.table e
  stands : ∀ e, D.Stands k.table e → D.Stands k'.table e
  grown : k.table.Grown k'.table

variable {D}

theorem From.refl (hk : D.Holds k) : D.From k k := ⟨hk, fun _ h => h, fun _ h => h, .refl⟩

theorem From.trans (h : D.From k k₁) (h' : D.From k₁ k₂) : D.From k k₂ where
  holds := h'.holds
  built e he := h'.built e (h.built e he)
  stands e he := h'.stands e (h.stands e he)
  grown := h.grown.trans h'.grown

variable (D)

/-- The action develops the kernel, and what it gives satisfies `P`. -/
abbrev Gives (x : Action α) (k : Kernel) (P : α → Kernel → Prop) : Prop :=
  Upholds (D.From k) x k P

variable {D} {x : Action α} {f : α → Action β} {P : α → Kernel → Prop} {Q : β → Kernel → Prop}

theorem gives_pure {a : α} (hk : D.Holds k) (h : P a k) : D.Gives (pure a) k P :=
  .pure (.refl hk) h

theorem gives_throw {e : Fault} (hk : D.Holds k) : D.Gives (throw e : Action α) k P :=
  .throw (.refl hk)

theorem Gives.bind (hx : D.Gives x k P)
    (hf : ∀ a k₁, D.From k k₁ → P a k₁ → D.Gives (f a) k₁ Q) : D.Gives (x >>= f) k Q :=
  Upholds.bind hx fun a k₁ h₁ ha =>
    ((hf a k₁ h₁ ha).weaken fun _ h₂ => h₁.trans h₂).mono fun _ _ _ h => h.2

/-- What a run gives is what it gave. -/
theorem Gives.run (hx : D.Gives x k P) :
    D.Gives x k fun a k' => P a k' ∧ x.run.run k = (.ok a, k') := by
  unfold Gives Upholds at hx ⊢
  rcases hr : x.run.run k with ⟨e | a, k'⟩
  · rw [hr] at hx
    exact hx
  · rw [hr] at hx
    exact ⟨hx.1, hx.2, rfl⟩

theorem gives_of_maintains (hk : D.Holds k) (hx : Maintains (D.From k) x) :
    D.Gives x k fun _ _ => True := hx k (.refl hk)

theorem gives_ofExcept {y : Except Fault α} (hk : D.Holds k) :
    D.Gives (ofExcept y) k fun a _ => y = .ok a := by
  cases y with
  | error e => exact gives_throw hk
  | ok a => exact gives_pure hk rfl

theorem gives_number {y : Except NumberFault α} (hk : D.Holds k) :
    D.Gives (Kernel.number y) k fun a _ => y = .ok a := by
  cases y with
  | error e => exact gives_throw hk
  | ok a => exact gives_pure hk rfl

theorem gives_getTable {f : DefinitionTable → Action β} (h : D.Gives (f k.table) k Q) :
    D.Gives (getTable >>= f) k Q := h

variable (D)

/-! ### Inferring -/

theorem log (level : Level) (source : Source) (message : String) :
    Maintains (D.From k) (Kernel.log level source message) := fun _ hk =>
  ⟨⟨D.noted _ hk.holds, hk.built, hk.stands, hk.grown⟩, trivial⟩

theorem infer {e : Expr} (he : D.Stands k.table e) (type : TypeName) :
    Maintains (D.From k) (Kernel.infer e type) := by
  intro k₁ hk₁
  obtain ⟨narrows, k', hrun, h⟩ := (yields_infer_cases e type k₁).exists_run
  unfold Upholds
  rw [hrun]
  obtain ⟨-, -, rfl⟩ | ⟨-, i, d, journal, hd, rfl⟩ := h
  · exact ⟨hk₁, trivial⟩
  · obtain ⟨hholds, hbuilt, hstands⟩ := D.narrowed hk₁.holds (hk₁.stands e he) hd
    have hentry := DefinitionTable.narrowable?_eq_some.1 hd
    exact ⟨⟨D.noted journal hholds, fun x hx => hbuilt x (hk₁.built x hx),
      fun x hx => hstands x (hk₁.stands x hx), hk₁.grown.narrowed hentry.2.1 hentry.2.2.2⟩, trivial⟩

theorem element {t : DefinitionTable} {e : Expr} (he : D.Stands t e) :
    ∀ x ∈ e.operands, D.Stands t x := by
  cases e with
  | application f ops d c => exact D.heldOperand he
  | _ => simp [Expr.operands]

theorem inferAll {ops : List Expr} (hops : ∀ e ∈ ops, D.Stands k.table e) (type : TypeName)
    (skip : Bool) : Maintains (D.From k) (Kernel.inferAll ops type skip) := by
  refine .forM fun e he => .ite (.ite (.forM fun x hx => ?_) (.pure ())) ?_
  · exact (D.infer (D.element (hops e he) x hx) type).bind fun _ => .pure ()
  · exact (D.infer (hops e he) type).bind fun _ => .pure ()

theorem inferParameters (threadable : Bool) {ops : List Expr}
    (hops : ∀ e ∈ ops, D.Stands k.table e) (params : List TypeName) :
    Maintains (D.From k) (Kernel.inferParameters threadable ops params) := by
  refine .forM ?_
  rintro ⟨e, type⟩ he
  exact .ite ((D.infer (hops e (List.of_mem_zip he).1) type).bind fun _ => .pure ()) (.pure ())

/-! ### Checks -/

section Operands

variable {t : DefinitionTable} {ops rs : List Expr}

theorem stands_flatten {a : Option String} (hops : ∀ e ∈ ops, D.Stands t e) :
    ∀ e ∈ Expr.flatten a ops, D.Stands t e :=
  Expr.forall_flatten (fun _ _ _ _ _ => D.heldOperand) hops

/-- Splicing operators that hold nothing back. -/
theorem built_flatten {a : Option String} (ha : ∀ f, a = some f → D.Mode f false)
    (hops : ∀ e ∈ ops, D.Built t e) : ∀ e ∈ Expr.flatten a ops, D.Built t e := by
  refine Expr.forall_flatten (fun f ops d c hf => D.operand ?_) hops
  simp only [Expr.isSpliced, Bool.or_eq_true, beq_iff_eq] at hf
  rcases hf with rfl | hf
  · exact D.sequence
  · exact ha f hf

theorem stands_refused (h : Refused ops rs) (hops : ∀ e ∈ ops, D.Stands t e) :
    ∀ e ∈ rs, D.Stands t e :=
  fun e he => (h.mem e he).elim (hops e) fun he => D.stands (D.error he)

theorem built_refused (h : Refused ops rs) (hops : ∀ e ∈ ops, D.Built t e) :
    ∀ e ∈ rs, D.Built t e :=
  fun e he => (h.mem e he).elim (hops e) D.error

end Operands

theorem maintains_checkNumeric {ops : List Expr} (hops : ∀ e ∈ ops, D.Stands k.table e)
    (count : Option Nat) (a : Option String) :
    Maintains (D.From k) (Kernel.checkNumeric ops count a) := by
  have hflat := D.stands_flatten (a := a) hops
  refine Maintains.getTable.bind fun t => Maintains.isStrict.bind fun strict => ?_
  refine .ite ((D.inferAll hflat _ _).bind fun _ => .pure _) ?_
  refine .ite ((D.inferAll ?_ _ _).bind fun _ => .pure _) (.pure _)
  exact D.stands_refused (refused_checkedNumbers t _ _) hflat

theorem maintains_checkSignature {ops : List Expr} (hops : ∀ e ∈ ops, D.Stands k.table e)
    (s : Signature) (held threadable : Bool) :
    Maintains (D.From k) (Kernel.checkSignature ops s held threadable) := by
  refine Maintains.isStrict.bind fun strict => .ite (.pure _) (Maintains.getTable.bind fun t => ?_)
  exact .ite (.ite ((D.inferParameters _ hops _).bind fun _ => .pure _) (.pure _)) (.pure _)

/-- What is built of these expressions is built of what they became. -/
theorem From.built_all {ops : List Expr} (h : D.From k k₁) (hops : ∀ e ∈ ops, D.Built k.table e) :
    ∀ e ∈ ops, D.Built k₁.table e := fun e he => h.built e (hops e he)

theorem checkNumeric (hk : D.Holds k) {ops : List Expr} (hops : ∀ e ∈ ops, D.Built k.table e)
    (count : Option Nat) : D.Gives (Kernel.checkNumeric ops count none) k fun rs k' =>
      ∀ e ∈ rs, D.Built k'.table e :=
  ((D.maintains_checkNumeric (fun e he => D.stands (hops e he)) count none k (.refl hk)).of_yields
    (yields_checkNumeric_refused ops count)).mono fun _ _ h₁ h =>
      D.built_refused h.2 (h₁.built_all D (D.built_flatten (by simp) hops))

theorem checkSignature (hk : D.Holds k) {ops : List Expr} (hops : ∀ e ∈ ops, D.Built k.table e)
    (s : Signature) (held threadable : Bool) :
    D.Gives (Kernel.checkSignature ops s held threadable) k fun o k' =>
      ∀ e ∈ o.getD ops, D.Built k'.table e :=
  ((D.maintains_checkSignature (fun e he => D.stands (hops e he)) s held threadable k
    (.refl hk)).of_yields (yields_checkSignature_refused ops s held threadable)).mono
      fun _ _ h₁ h => D.built_refused h.2 (h₁.built_all D hops)

theorem checkOperands (hk : D.Holds k) {ops : List Expr} (hops : ∀ e ∈ ops, D.Built k.table e)
    (d : FunctionDefinition) : D.Gives (Kernel.checkOperands d ops) k fun rs k' =>
      ∀ e ∈ rs, D.Built k'.table e := by
  unfold Kernel.checkOperands
  split
  next => exact D.checkNumeric hk hops _
  next => exact (D.checkSignature hk hops _ _ _).bind fun o k₁ h₁ hrs => gives_pure h₁.holds hrs

/-! ### Numbers, symbols and applications -/

theorem intern (hk : D.Holds k) {e : Expr} (he : D.Built k.table e) :
    D.Gives (Kernel.intern e) k fun r k' => D.Built k'.table r := by
  unfold Kernel.intern
  refine Upholds.bind (P := fun k₀ k' => k₀ = k ∧ k' = k) ⟨.refl hk, rfl, rfl⟩ ?_
  rintro _ k - ⟨rfl, rfl⟩
  split
  next x hx =>
    exact gives_pure hk (D.pooled hk he (List.mem_of_find?_eq_some hx) (List.find?_some hx))
  next => exact ⟨⟨D.pooling hk he, fun _ h => h, fun _ h => h, .refl⟩, he⟩

theorem makeNumber (hk : D.Holds k) {v : Number} (hv : D.Admits v) :
    D.Gives (Kernel.makeNumber v) k fun r k' => D.Built k'.table r :=
  D.intern hk (D.number hv)

/-- An application that may be built. -/
theorem apply (hk : D.Holds k) {f : String} {ops : List Expr}
    (he : D.Built k.table (.application f ops (k.table.functionNumber? f) true)) :
    D.Gives (Kernel.apply f ops) k fun r k' => D.Built k'.table r :=
  gives_getTable (D.intern hk he)

theorem holdApplication (hk : D.Holds k) {f : String} (hf : D.Heads f) {ops : List Expr}
    (hops : ∀ e ∈ ops, D.Stands k.table e) :
    D.Gives (Kernel.holdApplication f ops) k fun r k' => D.Stands k'.table r :=
  gives_getTable (gives_pure hk (D.heldApplication hk hf hops))

/-- A name is met as a symbol. -/
theorem meetSymbol (hk : D.Holds k) {n : String} (hn : D.Names n)
    (hwildcard : Expr.isWildcardName n = false) :
    D.Gives (Kernel.meetSymbol n) k fun d k' =>
      d = k'.table.number? n ∧ k'.table.contains n = true := by
  unfold Kernel.meetSymbol
  refine gives_getTable ?_
  split
  next i hi => exact gives_pure hk ⟨hi.symm, by rw [DefinitionTable.contains, hi]; rfl⟩
  next h =>
    have hnew : k.table.contains n = false := by rw [DefinitionTable.contains, h]; rfl
    obtain ⟨hholds, hbuilt, hstands⟩ := D.met hk hnew (.inl ⟨hn, rfl⟩) hwildcard
    exact ⟨⟨hholds, hbuilt, hstands, .met .refl hnew .symbol⟩, rfl, by simp⟩

theorem makeSymbol (hk : D.Holds k) {n : String} (hn : D.Names n) :
    D.Gives (Kernel.makeSymbol n) k fun r k' => D.Built k'.table r := by
  unfold Kernel.makeSymbol
  split
  next h => exact D.intern hk (D.wildcard hn h)
  next h =>
    have hwildcard : Expr.isWildcardName n = false := by simpa using h
    refine (D.meetSymbol hk hn hwildcard).bind fun d k₁ h₁ hd => D.intern h₁.holds ?_
    rw [hd.1]
    exact D.symbol h₁.holds hn hwildcard hd.2

theorem holdSymbol (hk : D.Holds k) {n : String} (hn : D.Names n) :
    D.Gives (Kernel.holdSymbol n) k fun r k' => D.Stands k'.table r := by
  unfold Kernel.holdSymbol
  split
  next h => exact (D.intern hk (D.wildcard hn h)).mono fun _ _ _ => D.stands
  next h => exact gives_getTable (gives_pure hk (D.heldSymbol hk hn (by simpa using h)))

/-- A function is met; then a name has a definition. -/
theorem meetFunction (hk : D.Holds k) {f : String} (hf : D.Heads f)
    (hwildcard : Expr.isWildcardName f = false) :
    D.Gives (Kernel.meetFunction f) k fun _ k' => k'.table.contains f = true := by
  unfold Kernel.meetFunction
  refine gives_getTable ?_
  split
  next h =>
    have hnew : k.table.contains f = false := by simpa using h
    obtain ⟨hholds, hbuilt, hstands⟩ := D.met hk hnew (.inr ⟨hf, rfl⟩) hwildcard
    exact ⟨⟨hholds, hbuilt, hstands, .met .refl hnew .function⟩, by simp⟩
  next h => exact ⟨.refl hk, by simpa using h⟩

theorem boxNumber (hk : D.Holds k) {r : Raw} (hr : D.Reads r) :
    D.Gives (Kernel.boxNumber r) k fun r k' => D.Built k'.table r :=
  Gives.bind (P := fun _ k' => D.Holds k') ⟨.refl hk, hk⟩ fun _ _ _ hk₁ =>
    (gives_ofExcept hk₁).bind fun _ _ h₂ hv => D.makeNumber h₂.holds (D.literal hr hv)

/-! ### Forms of their own -/

/-- What a form gives, if it gives anything. -/
abbrev GivesForm (x : Action (Option Expr)) (k : Kernel) : Prop :=
  D.Gives x k fun o k' => ∀ r, o = some r → D.Built k'.table r

theorem some {x : Action Expr} (hx : D.Gives x k fun r k' => D.Built k'.table r) :
    D.GivesForm (do return Option.some (← x)) k :=
  hx.bind fun _ _ h₁ hr => gives_pure h₁.holds fun _ h => by cases h; exact hr

/-- A form of its own, of operands that it checks. -/
theorem ownForm (hk : D.Holds k) (form : CanonicalForm) {count : Nat}
    (hform : form.arity? = Option.some count) {ops : List Expr} (hops : ∀ e ∈ ops, D.Built k.table e) :
    D.GivesForm (Kernel.buildForm (.canonicalForm form) ops) k := by
  obtain ⟨step, heq, hstep⟩ := exists_forms hform ops
  rw [heq]
  refine (D.checkNumeric hk hops _).run.bind fun rs k₁ h₁ hrs => ?_
  obtain ⟨hrs, hrun⟩ := hrs
  have hk₁ := h₁.holds
  have h := hstep rs
  generalize step rs = x at h ⊢
  cases h with
  | nothing => exact gives_throw hk₁
  | miscounted => exact gives_throw hk₁
  | opposite =>
      have hv := D.admits (hrs _ List.mem_cons_self)
      exact (gives_number hk₁).bind fun w k₂ h₂ hw => D.some (D.makeNumber h₂.holds (D.neg hv hw))
  | negated =>
      exact gives_pure hk₁ fun r hr =>
        D.operand D.negate (hrs _ List.mem_cons_self) r (List.mem_of_mem_head? hr)
  | negation e rest hn hv =>
      cases hform
      exact D.some (D.apply hk₁ (D.negated hk hk₁ h₁.grown hops hrun hrs hn hv))
  | quotient n d h =>
      rw [Bool.and_eq_true] at h
      refine (gives_number hk₁).bind fun w k₂ h₂ hw => D.some (D.makeNumber h₂.holds ?_)
      exact D.div (D.admits (hrs _ (by simp))) (D.admits (hrs _ (by simp))) h.1 h.2 hw
  | rational a b h =>
      cases hform
      exact D.some (D.apply hk₁ (D.paired hk hk₁ h₁.grown hops hrun hrs (.inl ⟨rfl, h⟩)))
  | parts x y =>
      refine D.some (D.makeNumber hk₁ (D.parts ?_ ?_))
      · exact D.admits (hrs (.number (.real x)) (by simp))
      · exact D.admits (hrs (.number (.real y)) (by simp))
  | complex a b h =>
      cases hform
      exact D.some (D.apply hk₁ (D.paired hk hk₁ h₁.grown hops hrun hrs (.inr ⟨rfl, h⟩)))

theorem buildForm (hk : D.Holds k) (form : Callback) {ops : List Expr}
    (hops : ∀ e ∈ ops, D.Built k.table e) : D.GivesForm (Kernel.buildForm form ops) k := by
  unfold Kernel.buildForm
  split
  next => exact D.ownForm hk .negation rfl hops
  next => exact D.ownForm hk .rational rfl hops
  next => exact D.ownForm hk .complexPair rfl hops
  next => exact gives_pure hk fun r hr => hops r (List.mem_of_mem_head? hr)
  next => exact D.some (D.makeNumber hk D.zero)
  next => exact gives_pure hk (by simp)
  next => exact gives_throw hk

/-! ### Building -/

/-- A function that does not hold its operands back is applied to them once they are checked. -/
theorem applyChecked {k₀ : Kernel} (hk₀ : D.Holds k₀) (hk : D.Holds k)
    (hgrown : k₀.table.Grown k.table) {f : String} (hf : D.Heads f)
    (hwildcard : Expr.isWildcardName f = false) {d : FunctionDefinition}
    (hd : k₀.table.find? f = Option.some (.function d)) (hlazy : d.isLazy.truthy = false)
    {ops : List Expr} (hops : ∀ e ∈ ops, D.Built k.table e)
    (hform : ∀ form, d.canonical = Option.some form → ∃ k', D.Holds k' ∧
      (∀ e ∈ ops, D.Built k'.table e) ∧ (Kernel.buildForm form ops).run.run k' = (.ok none, k)) :
    D.Gives (Kernel.applyChecked f d ops) k fun r k' => D.Built k'.table r := by
  have hmode : D.Mode f false := by
    have h := D.mode hk₀ f
    rwa [DefinitionTable.holdsOperands_of_find? hd, holdsBack, hlazy] at h
  have hes := D.built_flatten (a := splices f d) (by unfold splices; split <;> simp [hmode]) hops
  rw [applyChecked_eq]
  refine (D.checkOperands hk hes d).run.bind fun rs k₁ h₁ hrs => D.apply h₁.holds ?_
  exact D.checked hk₀ hk h₁.holds hgrown h₁.grown hf hwildcard hd hlazy hform hops hrs.2 hrs.1

/-- A function that does not hold its operands back is applied to them, by its own form or checked. -/
theorem applyFunction {k₀ : Kernel} (hk₀ : D.Holds k₀) (hk : D.Holds k)
    (hgrown : k₀.table.Grown k.table) {f : String} (hf : D.Heads f)
    (hwildcard : Expr.isWildcardName f = false) {d : FunctionDefinition}
    (hd : k₀.table.find? f = Option.some (.function d)) (hlazy : d.isLazy.truthy = false)
    {ops : List Expr} (hops : ∀ e ∈ ops, D.Built k.table e) :
    D.Gives (Kernel.applyFunction f d ops) k fun r k' => D.Built k'.table r := by
  unfold Kernel.applyFunction
  split
  next hform => exact D.applyChecked hk₀ hk hgrown hf hwildcard hd hlazy hops (by simp [hform])
  next form hform =>
    refine (D.buildForm hk form hops).run.bind fun o k₁ h₁ ho => ?_
    cases o with
    | some r => exact gives_pure h₁.holds (ho.1 r rfl)
    | none =>
        refine D.applyChecked hk₀ h₁.holds (hgrown.trans h₁.grown) hf hwildcard hd hlazy
          (h₁.built_all D hops) fun form' hform' => ?_
        rw [hform] at hform'
        cases hform'
        exact ⟨k, hk, hops, ho.2⟩

/-- **Building keeps to the development**, of operands in canonical form or, for an operator that holds
them back, as they stand. -/
theorem build (hk : D.Holds k) {f : String} (hf : D.Heads f) {canonical held : Action (List Expr)}
    (hcanonical : ∀ k₁, D.From k k₁ → D.Gives canonical k₁ fun rs k' => ∀ e ∈ rs, D.Built k'.table e)
    (hheld : ∀ k₁, D.From k k₁ →
      D.Gives held k₁ fun rs k' => ∀ e ∈ rs, D.Stands k'.table e ∧ D.Keeps e) :
    D.Gives (Kernel.build f canonical held) k fun r k' => D.Built k'.table r := by
  have happly : ∀ {k₁}, D.From k k₁ →
      (Expr.isWildcardName f = true ∨ k₁.table.contains f = true ∧ k₁.table.functionNumber? f = none) →
      D.Gives (do Kernel.apply f (← canonical)) k₁ fun r k' => D.Built k'.table r := fun h₁ hplain =>
    (hcanonical _ h₁).bind fun rs k₂ h₂ hrs =>
      D.apply h₂.holds (D.plain h₁.holds h₂.holds h₂.grown hf hplain hrs)
  cases hwildcard : Expr.isWildcardName f with
  | true =>
      rw [build_of_isWildcardName hwildcard]
      exact happly (.refl hk) (.inl hwildcard)
  | false =>
      rw [build_eq hwildcard]
      refine (D.meetFunction hk hf hwildcard).bind fun _ k₁ h₁ hcontains => gives_getTable ?_
      have h := applies f canonical held (k₁.table.find? f)
      generalize applyMet f canonical held (k₁.table.find? f) = x at h ⊢
      generalize hd : k₁.table.find? f = definition at h
      cases h with
      | plain h =>
          exact happly h₁
            (.inr ⟨hcontains, DefinitionTable.functionNumber?_of_find?_ne (hd ▸ h)⟩)
      | held d hlazy =>
          have hmode : D.Mode f true := by
            have h := D.mode h₁.holds f
            rwa [DefinitionTable.holdsOperands_of_find? hd, holdsBack, hlazy] at h
          refine (hheld k₁ h₁).bind fun rs k₂ h₂ hrs => D.apply h₂.holds ?_
          obtain ⟨result, hd'⟩ := h₂.grown.function? hd
          exact D.lazy h₂.holds hf hwildcard hmode hd' hlazy (fun e he => (hrs e he).1)
            fun e he => (hrs e he).2
      | function d hlazy =>
          exact (hcanonical k₁ h₁).bind fun rs k₂ h₂ hrs =>
            D.applyFunction h₁.holds h₂.holds h₂.grown hf hwildcard hd hlazy hrs

/-! ### From shapes -/

mutual

/-- **Building a shape keeps to the development**, also where the shape cannot be built. -/
theorem box {k : Kernel} (hk : D.Holds k) {r : Raw} (hr : D.Reads r) :
    D.Gives (Kernel.box r) k fun e k' => D.Built k'.table e := by
  unfold Kernel.box
  split
  next => exact D.makeSymbol hk (D.truth hr)
  next => exact D.makeSymbol hk (D.name hr)
  next f args =>
    split
    next => exact boxError hk (D.item hr)
    next hf =>
      exact D.build hk (D.head hr (by simpa using hf)) (fun _ h₁ => boxAll h₁.holds (D.item hr))
        fun _ h₁ => holdAll h₁.holds (D.item hr)
  next => exact gives_throw hk
  next => exact gives_throw hk
  next => exact gives_throw hk
  next => exact D.boxNumber hk hr
termination_by sizeOf r

theorem boxAll {k : Kernel} (hk : D.Holds k) {rs : List Raw} (hrs : ∀ r ∈ rs, D.Reads r) :
    D.Gives (Kernel.boxAll rs) k fun es k' => ∀ e ∈ es, D.Built k'.table e := by
  unfold Kernel.boxAll
  split
  next => exact gives_pure hk (by simp)
  next r rest =>
    rw [List.forall_mem_cons] at hrs
    refine (box hk hrs.1).bind fun e k₁ h₁ he => ?_
    refine (boxAll h₁.holds hrs.2).bind fun es k₂ h₂ hes => gives_pure h₂.holds ?_
    exact List.forall_mem_cons.2 ⟨h₂.built e he, hes⟩
termination_by sizeOf rs

theorem hold {k : Kernel} (hk : D.Holds k) {r : Raw} (hr : D.Reads r) :
    D.Gives (Kernel.hold r) k fun e k' => D.Stands k'.table e := by
  unfold Kernel.hold
  split
  next => exact (D.makeSymbol hk (D.truth hr)).mono fun _ _ _ => D.stands
  next => exact D.holdSymbol hk (D.name hr)
  next f args =>
    split
    next => exact (boxError hk (D.item hr)).mono fun _ _ _ => D.stands
    next hf =>
      exact (holdAll hk (D.item hr)).bind fun es k₁ h₁ hes =>
        D.holdApplication h₁.holds (D.head hr (by simpa using hf)) fun e he => (hes e he).1
  next => exact gives_throw hk
  next => exact gives_throw hk
  next => exact gives_throw hk
  next => exact (D.boxNumber hk hr).mono fun _ _ _ => D.stands
termination_by sizeOf r

theorem holdAll {k : Kernel} (hk : D.Holds k) {rs : List Raw} (hrs : ∀ r ∈ rs, D.Reads r) :
    D.Gives (Kernel.holdAll rs) k fun es k' => ∀ e ∈ es, D.Stands k'.table e ∧ D.Keeps e := by
  unfold Kernel.holdAll
  split
  next => exact gives_pure hk (by simp)
  next r rest =>
    rw [List.forall_mem_cons] at hrs
    refine (hold hk hrs.1).run.bind fun e k₁ h₁ he => ?_
    refine (holdAll h₁.holds hrs.2).bind fun es k₂ h₂ hes => gives_pure h₂.holds ?_
    exact List.forall_mem_cons.2 ⟨⟨h₂.stands e he.1, D.keeps hrs.1 he.2⟩, hes⟩
termination_by sizeOf rs

theorem boxError {k : Kernel} (hk : D.Holds k) {rs : List Raw} (hrs : ∀ r ∈ rs, D.Reads r) :
    D.Gives (Kernel.boxError rs) k fun e k' => D.Built k'.table e := by
  unfold Kernel.boxError
  split
  next => exact gives_pure hk (D.error rfl)
  next code rest =>
    rw [List.forall_mem_cons] at hrs
    exact (errorOperand hk hrs.2).bind fun _ _ h₁ _ => gives_pure h₁.holds (D.error rfl)
termination_by sizeOf rs

theorem errorOperand {k : Kernel} (hk : D.Holds k) {rs : List Raw} (hrs : ∀ r ∈ rs, D.Reads r) :
    D.Gives (Kernel.errorOperand rs) k fun _ _ => True := by
  unfold Kernel.errorOperand
  split
  next => exact gives_pure hk trivial
  next => exact gives_pure hk trivial
  next r _ =>
    exact (hold hk (hrs r (by simp))).bind fun _ _ h₁ _ => gives_pure h₁.holds trivial
  next rest _ _ =>
    rw [List.forall_mem_cons] at hrs
    exact errorOperand hk hrs.2
termination_by sizeOf rs

end

/-! ### From expressions

The names of an expression were met before, unless it was built by hand, so any name may be met. -/

mutual

/-- **Bringing an expression into canonical form keeps to the development.** -/
theorem canonicalize (hnames : ∀ n, D.Names n) (hheads : ∀ f, D.Heads f)
    (hkeeps : ∀ e, D.Keeps e) : ∀ {e : Expr} {k : Kernel},
    D.Holds k → D.Stands k.table e →
    D.Gives (Kernel.canonicalize e) k fun r k' => D.Built k'.table r
  | .number _, _, hk, he => gives_pure hk (D.built he rfl)
  | .error _ _ _, _, hk, _ => gives_pure hk (D.error rfl)
  | .symbol n d c, k, hk, he => by
      unfold Kernel.canonicalize
      split
      next hc => exact gives_pure hk (D.built he hc)
      next => exact D.makeSymbol hk (hnames n)
  | .application f ops d c, k, hk, he => by
      unfold Kernel.canonicalize
      split
      next hc => exact gives_pure hk (D.built he hc)
      next =>
        have hops := D.heldOperand he
        exact D.build hk (hheads f)
          (fun _ h₁ => canonicalizeAll hnames hheads hkeeps h₁.holds fun e he => h₁.stands e (hops e he))
          fun _ h₁ => gives_pure h₁.holds fun e he => ⟨h₁.stands e (hops e he), hkeeps e⟩

theorem canonicalizeAll (hnames : ∀ n, D.Names n) (hheads : ∀ f, D.Heads f)
    (hkeeps : ∀ e, D.Keeps e) :
    ∀ {es : List Expr} {k : Kernel}, D.Holds k → (∀ e ∈ es, D.Stands k.table e) →
    D.Gives (Kernel.canonicalizeAll es) k fun rs k' => ∀ e ∈ rs, D.Built k'.table e
  | [], _, hk, _ => gives_pure hk (by simp)
  | e :: rest, k, hk, hes => by
      rw [List.forall_mem_cons] at hes
      unfold Kernel.canonicalizeAll
      refine (canonicalize hnames hheads hkeeps hk hes.1).bind fun r k₁ h₁ hr => ?_
      refine (canonicalizeAll hnames hheads hkeeps h₁.holds fun e he => h₁.stands e (hes.2 e he)).bind ?_
      exact fun rs k₂ h₂ hrs => gives_pure h₂.holds (List.forall_mem_cons.2 ⟨h₂.built r hr, hrs⟩)

end

theorem buildFrom (hnames : ∀ n, D.Names n) (hheads : ∀ f, D.Heads f)
    (hkeeps : ∀ e, D.Keeps e) (hk : D.Holds k) (f : String)
    {ops : List Expr} (hops : ∀ e ∈ ops, D.Stands k.table e) :
    D.Gives (Kernel.buildFrom f ops) k fun r k' => D.Built k'.table r :=
  D.build hk (hheads f)
    (fun _ h₁ => D.canonicalizeAll hnames hheads hkeeps h₁.holds fun e he => h₁.stands e (hops e he))
    fun _ h₁ => gives_pure h₁.holds fun e he => ⟨h₁.stands e (hops e he), hkeeps e⟩

/-- An application that is built anew keeps its form. -/
theorem rebuild (hnames : ∀ n, D.Names n) (hheads : ∀ f, D.Heads f)
    (hkeeps : ∀ e, D.Keeps e) (hk : D.Holds k) (f : String)
    {ops : List Expr} (hops : ∀ e ∈ ops, D.Stands k.table e) (c : Bool) :
    D.Gives (Kernel.rebuild f ops c) k fun r k' =>
      D.Stands k'.table r ∧ (c = true → D.Built k'.table r) := by
  unfold Kernel.rebuild
  split
  next =>
    exact (D.buildFrom hnames hheads hkeeps hk f hops).mono fun _ _ _ h => ⟨D.stands h, fun _ => h⟩
  next hc =>
    exact (D.holdApplication hk (hheads f) hops).mono fun _ _ _ h => ⟨h, fun h' => absurd h' hc⟩

end Development

end Kernel

end SymbolicAlgebra
