import SymbolicAlgebra.Proofs.Development

/-!
# Proofs/Construction — what building expressions brings about

Building an expression adds to the pool and to the journal, meets names and narrows types; the result
consists of numbers, symbols and applications of operators to what was built before, and of errors in
the place of operands.  A *construction* is a property of kernels with two properties of expressions, in
canonical form and as they stand, that go along with this.  It is a development whose properties do not
look into the table, so building any shape or expression keeps to it, also where it fails
(`Construction.box`, `Construction.canonicalize` and the lemmas before them).
-/

namespace SymbolicAlgebra

mutual

/-- The names that occur in a shape, those of truth values included. -/
def Raw.names : Raw → List String
  | .name n => [n]
  | .bool b => [if b then "True" else "False"]
  | .list items => namesAll items
  | _ => []

def Raw.namesAll : List Raw → List String
  | [] => []
  | r :: rest => names r ++ namesAll rest

end

theorem Raw.mem_namesAll {rs : List Raw} {n : String} :
    n ∈ namesAll rs ↔ ∃ r ∈ rs, n ∈ r.names := by
  induction rs with
  | nil => simp [namesAll]
  | cons r rest ih => simp [namesAll, ih]

namespace Kernel

/-! ## Constructions -/

/-- A property of kernels, and properties of expressions in canonical form and as they stand, that
building keeps to. -/
structure Construction where
  Holds : Kernel → Prop
  /-- What is built in canonical form. -/
  Built : Expr → Prop
  /-- What is built or used as it stands. -/
  Stands : Expr → Prop
  /-- The names that may be met. -/
  Meets : String → Prop
  /-- Whether an operator may hold its operands back, and whether it may not. -/
  Mode : String → Bool → Prop
  stands : ∀ {e}, Built e → Stands e
  built : ∀ {e}, Stands e → e.isCanonical = true → Built e
  -- the expressions
  number : ∀ v, Built (.number v)
  error : ∀ {e}, e.isError = true → Built e
  wildcard : ∀ {n}, Meets n → Built (.symbol n none true)
  symbol : ∀ {k n}, Holds k → Meets n → Built (.symbol n (k.table.number? n) true)
  heldSymbol : ∀ {k n}, Holds k → Meets n → Stands (.symbol n (k.table.number? n) false)
  application : ∀ {k f ops}, Holds k → Meets f ∨ f ∈ formOperators → (∀ e ∈ ops, Built e) →
    Built (.application f ops (k.table.functionNumber? f) true)
  lazyApplication : ∀ {k f ops}, Holds k → Meets f → Mode f true → (∀ e ∈ ops, Stands e) →
    Built (.application f ops (k.table.functionNumber? f) true)
  heldApplication : ∀ {k f ops}, Holds k → Meets f → (∀ e ∈ ops, Stands e) →
    Stands (.application f ops (k.table.functionNumber? f) false)
  operand : ∀ {f ops d c}, Mode f false → Built (.application f ops d c) → ∀ e ∈ ops, Built e
  heldOperand : ∀ {f ops d c}, Stands (.application f ops d c) → ∀ e ∈ ops, Stands e
  mode : ∀ {k}, Holds k → ∀ f, Mode f (k.table.holdsOperands f)
  sequence : Mode "Sequence" false
  negate : Mode "Negate" false
  -- the kernel
  pooling : ∀ {k e}, Holds k → Built e → Holds (k.pooling e)
  pooled : ∀ {k e x}, Holds k → Built e → x ∈ k.pool → e.same x = true → Built x
  noted : ∀ {k} journal, Holds k → Holds { k with journal }
  narrowed : ∀ {k e type i d}, Holds k → Stands e → k.table.narrowable? e type = some (i, d) →
    Holds { k with table := k.table.modify i fun _ => d.narrow type }
  met : ∀ {k name d}, Holds k → k.table.contains name = false → Meets name →
    Expr.isWildcardName name = false → Definition.IsMet name d →
    Holds { k with table := k.table.register name d }

namespace Construction

/-- A construction is a development that does not look into the table. -/
def development (C : Construction) : Development where
  Holds := C.Holds
  Built _ := C.Built
  Stands _ := C.Stands
  Keeps _ := True
  Reads r := ∀ n ∈ r.names, C.Meets n
  Names := C.Meets
  Heads := C.Meets
  Admits _ := True
  Mode := C.Mode
  stands := C.stands
  built := C.built
  keeps _ _ := trivial
  name h := h _ (by simp [Raw.names])
  truth h := h _ (by simp [Raw.names])
  head h _ := h _ (by simp [Raw.names, Raw.namesAll])
  item h r hr n hn := h n (by
    rw [Raw.names, Raw.namesAll, List.mem_append, Raw.mem_namesAll]
    exact .inr ⟨r, hr, hn⟩)
  literal _ _ := trivial
  zero := trivial
  neg _ _ := trivial
  div _ _ _ _ _ := trivial
  parts _ _ := trivial
  number _ := C.number _
  admits _ := trivial
  error := C.error
  wildcard hn _ := C.wildcard hn
  symbol hk hn _ _ := C.symbol hk hn
  heldSymbol hk hn _ := C.heldSymbol hk hn
  heldApplication := C.heldApplication
  plain _ hk _ hf _ hops := C.application hk (.inl hf) hops
  lazy hk hf _ hmode _ _ hops _ := C.lazyApplication hk hf hmode hops
  checked _ _ hk _ _ hf _ _ _ _ _ _ hrs := C.application hk (.inl hf) hrs
  negated _ hk _ _ _ hrs _ _ := C.application hk (.inr (by decide)) hrs
  paired _ hk _ _ _ hrs hf := by
    refine C.application hk (.inr ?_) hrs
    rcases hf with ⟨rfl, -⟩ | ⟨rfl, -⟩ <;> decide
  operand := C.operand
  heldOperand := C.heldOperand
  mode := C.mode
  sequence := C.sequence
  negate := C.negate
  pooling := C.pooling
  pooled := C.pooled
  noted := C.noted
  narrowed hk he hd := ⟨C.narrowed hk he hd, fun _ h => h, fun _ h => h⟩
  met hk hnew hname hwildcard := by
    refine ⟨?_, fun _ h => h, fun _ h => h⟩
    rcases hname with ⟨hn, rfl⟩ | ⟨hn, rfl⟩
    · exact C.met hk hnew hn hwildcard .symbol
    · exact C.met hk hnew hn hwildcard .function

variable (C : Construction) {k : Kernel}

/-- The action keeps to the construction, and what it gives satisfies `P`. -/
abbrev Gives {α : Type} (x : Action α) (k : Kernel) (P : α → Prop) : Prop :=
  Upholds C.Holds x k fun a _ => P a

variable {C}

theorem of_development {α : Type} {x : Action α} {P : α → Prop}
    (h : C.development.Gives x k fun a _ => P a) : C.Gives x k P :=
  (h.weaken fun _ h => h.holds).mono fun _ _ _ h => h.2

/-- Where every part of an action develops the kernel, so does the action. -/
theorem maintains_of_development {α : Type} {x : Action α}
    (h : ∀ k, C.Holds k → Maintains (C.development.From k) x) : Maintains C.Holds x := fun k hk =>
  of_development (Development.gives_of_maintains hk (h k hk))

variable (C)

theorem log (level : Level) (source : Source) (message : String) :
    Maintains C.Holds (Kernel.log level source message) :=
  maintains_of_development fun _ _ => C.development.log level source message

theorem infer {e : Expr} (he : C.Stands e) (type : TypeName) :
    Maintains C.Holds (Kernel.infer e type) :=
  maintains_of_development fun _ _ => C.development.infer he type

/-! ### Checks -/

theorem maintains_checkNumeric {ops : List Expr} (hops : ∀ e ∈ ops, C.Stands e) (count : Option Nat)
    (a : Option String) : Maintains C.Holds (checkNumeric ops count a) :=
  maintains_of_development fun _ _ => C.development.maintains_checkNumeric hops count a

theorem maintains_checkSignature {ops : List Expr} (hops : ∀ e ∈ ops, C.Stands e) (s : Signature)
    (held threadable : Bool) : Maintains C.Holds (checkSignature ops s held threadable) :=
  maintains_of_development fun _ _ =>
    C.development.maintains_checkSignature hops s held threadable

/-! ### Numbers, symbols and applications -/

theorem intern (hk : C.Holds k) {e : Expr} (he : C.Built e) :
    C.Gives (Kernel.intern e) k C.Built := of_development (C.development.intern hk he)

theorem makeNumber (hk : C.Holds k) (v : Number) : C.Gives (Kernel.makeNumber v) k C.Built :=
  C.intern hk (C.number v)

theorem apply (hk : C.Holds k) {f : String} (hf : C.Meets f ∨ f ∈ formOperators) {ops : List Expr}
    (hops : ∀ e ∈ ops, C.Built e) : C.Gives (Kernel.apply f ops) k C.Built :=
  of_development (C.development.apply hk (C.application hk hf hops))

theorem makeSymbol (hk : C.Holds k) {n : String} (hn : C.Meets n) :
    C.Gives (Kernel.makeSymbol n) k C.Built := of_development (C.development.makeSymbol hk hn)

theorem holdSymbol (hk : C.Holds k) {n : String} (hn : C.Meets n) :
    C.Gives (Kernel.holdSymbol n) k C.Stands := of_development (C.development.holdSymbol hk hn)

theorem boxNumber (hk : C.Holds k) (r : Raw) : C.Gives (Kernel.boxNumber r) k C.Built :=
  (Maintains.getPrecision k hk).bind fun p k₁ hk₁ _ =>
    (Maintains.ofExcept (Definition.numberOf p r) k₁ hk₁).bind fun v _ hk₂ _ => C.makeNumber hk₂ v

/-! ### Building -/

/-- What a form gives, if it gives anything. -/
abbrev GivesForm (x : Action (Option Expr)) (k : Kernel) : Prop :=
  C.Gives x k fun o => ∀ r, o = some r → C.Built r

theorem buildForm (hk : C.Holds k) (form : Callback) {ops : List Expr}
    (hops : ∀ e ∈ ops, C.Built e) : C.GivesForm (Kernel.buildForm form ops) k :=
  of_development (C.development.buildForm hk form hops)

/-- Operands of an operator that does not hold them back: if it splices, it splices its own. -/
theorem applyChecked (hk : C.Holds k) {f : String} (hf : C.Meets f) (hmode : C.Mode f false)
    (d : FunctionDefinition) {ops : List Expr} (hops : ∀ e ∈ ops, C.Built e) :
    C.Gives (Kernel.applyChecked f d ops) k C.Built := by
  have hes := C.development.built_flatten (t := k.table) (a := splices f d)
    (by unfold splices; split <;> simp [development, hmode]) hops
  rw [applyChecked_eq]
  exact (of_development (C.development.checkOperands hk hes d)).bind fun rs k₁ hk₁ hrs =>
    C.apply hk₁ (.inl hf) hrs

/-! ### From shapes -/

section Shapes

variable {r : Raw} {rs : List Raw}

theorem reads_all (hrs : ∀ n ∈ Raw.namesAll rs, C.Meets n) : ∀ r ∈ rs, C.development.Reads r :=
  fun r hr n hn => hrs n (Raw.mem_namesAll.2 ⟨r, hr, hn⟩)

/-- **Building a shape keeps to the construction**, also where the shape cannot be built. -/
theorem box (hk : C.Holds k) (hr : ∀ n ∈ r.names, C.Meets n) :
    C.Gives (Kernel.box r) k C.Built := of_development (C.development.box hk hr)

theorem boxAll (hk : C.Holds k) (hrs : ∀ n ∈ Raw.namesAll rs, C.Meets n) :
    C.Gives (Kernel.boxAll rs) k fun es => ∀ e ∈ es, C.Built e :=
  of_development (C.development.boxAll hk (C.reads_all hrs))

theorem hold (hk : C.Holds k) (hr : ∀ n ∈ r.names, C.Meets n) :
    C.Gives (Kernel.hold r) k C.Stands := of_development (C.development.hold hk hr)

theorem holdAll (hk : C.Holds k) (hrs : ∀ n ∈ Raw.namesAll rs, C.Meets n) :
    C.Gives (Kernel.holdAll rs) k fun es => ∀ e ∈ es, C.Stands e :=
  of_development ((C.development.holdAll hk (C.reads_all hrs)).mono fun _ _ _ h e he => (h e he).1)

theorem boxError (hk : C.Holds k) (hrs : ∀ n ∈ Raw.namesAll rs, C.Meets n) :
    C.Gives (Kernel.boxError rs) k C.Built :=
  of_development (C.development.boxError hk (C.reads_all hrs))

end Shapes

/-! ### From expressions

The names of an expression were met before, unless it was built by hand, so any name may be met. -/

section Expressions

variable (hmeets : ∀ n, C.Meets n) (hk : C.Holds k) {e : Expr} {es : List Expr}

include hmeets hk

/-- **Bringing an expression into canonical form keeps to the construction.** -/
theorem canonicalize (he : C.Stands e) : C.Gives (Kernel.canonicalize e) k C.Built :=
  of_development (C.development.canonicalize hmeets hmeets (fun _ => trivial) hk he)

theorem canonicalizeAll (hes : ∀ e ∈ es, C.Stands e) :
    C.Gives (Kernel.canonicalizeAll es) k fun rs => ∀ e ∈ rs, C.Built e :=
  of_development (C.development.canonicalizeAll hmeets hmeets (fun _ => trivial) hk hes)

theorem buildFrom (f : String) (hes : ∀ e ∈ es, C.Stands e) :
    C.Gives (Kernel.buildFrom f es) k C.Built :=
  of_development (C.development.buildFrom hmeets hmeets (fun _ => trivial) hk f hes)

/-- An application that is built anew keeps its form. -/
theorem rebuild (f : String) (hes : ∀ e ∈ es, C.Stands e) (c : Bool) :
    C.Gives (Kernel.rebuild f es c) k fun r => C.Stands r ∧ (c = true → C.Built r) :=
  of_development (C.development.rebuild hmeets hmeets (fun _ => trivial) hk f hes c)

end Expressions

end Construction

end Kernel

end SymbolicAlgebra
