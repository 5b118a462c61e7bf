import SymbolicAlgebra.Proofs.Upholding

/-!
# Proofs/Registration — what happens to a definition table

A name is registered when it is declared or met, and a registration is narrowed when a type is
inferred for an expression that was built with it.  Nothing else changes a table.  `infer_cases` says
what inferring does, and which registration it narrows; everything said of inferred types follows
from it.
-/

namespace SymbolicAlgebra

namespace Definition

/-- What is registered for a name that is met. -/
inductive IsMet (name : String) : Definition → Prop
  | symbol : IsMet name (.symbol (.met name))
  | function : IsMet name (.function (.met name))

/-- The type of a symbol, or of the results of a function. -/
def typing : Definition → ResultRule
  | symbol d => .fixed d.type
  | function d => d.signature.result

/-- Whether the type is known, and not just any type. -/
def isSettled (d : Definition) : Bool := d.typing ≠ .fixed .unknown ∧ d.typing ≠ .fixed .any

/-- Whether the type of a symbol, or of the results of a function, may be narrowed to `type`. -/
def accepts : Definition → TypeName → Bool
  | symbol d, type => d.accepts type
  | function d, type => d.accepts type

/-- The definition with its type, or the type of its results, narrowed. -/
def narrow (type : TypeName) : Definition → Definition
  | symbol d => symbol { d with type }
  | function d => function { d with signature := { d.signature with result := .fixed type } }

theorem isSettled_eq_false {d : Definition} :
    d.isSettled = false ↔ d.typing = .fixed .unknown ∨ d.typing = .fixed .any := by
  rw [isSettled, decide_eq_false_iff_not]
  tauto

/-- **Only what was inferred and is not settled is narrowed**, and only to what is known. -/
theorem accepts_iff (d : Definition) (type : TypeName) :
    d.accepts type = true ↔ d.isInferred = true ∧ d.isSettled = false ∧ type.isOpen = false := by
  have hopen : ∀ t : TypeName, t.isOpen = true ↔ t = .unknown ∨ t = .any := fun t => by
    rw [TypeName.isOpen, Bool.or_eq_true, decide_eq_true_eq, decide_eq_true_eq]
  rw [isSettled_eq_false]
  cases d with
  | symbol d =>
      simp only [accepts, SymbolDefinition.accepts, isInferred, typing, ResultRule.fixed.injEq,
        Bool.and_eq_true, hopen, Bool.not_eq_true']
      tauto
  | function d =>
      simp only [accepts, FunctionDefinition.accepts, isInferred, typing, Bool.and_eq_true,
        Bool.not_eq_true']
      cases d.signature.result with
      | fixed t =>
          simp only [ResultRule.fixed?, hopen, ResultRule.fixed.injEq]
          tauto
      | _ => simp [ResultRule.fixed?]

/-- What was narrowed is settled. -/
theorem isSettled_narrow {d : Definition} {type : TypeName} (h : d.accepts type = true) :
    (d.narrow type).isSettled = true := by
  have htyping : (d.narrow type).typing = .fixed type := by cases d <;> rfl
  have hopen := ((accepts_iff d type).1 h).2.2
  simp only [TypeName.isOpen, Bool.or_eq_false_iff, decide_eq_false_iff_not] at hopen
  simp [isSettled, htyping, hopen]

/-- Whether an expression that was built with the definition stands for what it describes: a symbol
for its value, an application for the result of its operator. -/
def describes : Definition → Expr → Bool
  | symbol _, e => e.isSymbol
  | function _, e => e.isApplication

end Definition

namespace DefinitionTable

variable {t : DefinitionTable}

/-! ## Registering -/

theorem get?_register (name : String) (d : Definition) (i : Nat) :
    (t.register name d).get? i = if i = t.entries.size then some d else t.get? i :=
  Array.getElem?_push

/-- A name stands for its latest registration. -/
theorem number?_register (name : String) (d : Definition) (n : String) :
    (t.register name d).number? n = if n = name then some t.entries.size else t.number? n := by
  have hcons : ∀ m j (rest : List (String × Nat)),
      ((m, j) :: rest).lookup n = if n = m then some j else rest.lookup n := by
    intro m j rest
    rw [List.lookup_cons]
    by_cases hm : n = m
    · rw [if_pos hm, beq_iff_eq.2 hm]
    · rw [if_neg hm, beq_eq_false_iff_ne.2 hm]
  have hmap : ∀ f : String × Nat → String × Nat,
      (∀ m j, f (m, j) = if m == name then (m, t.entries.size) else (m, j)) →
      ∀ names : List (String × Nat),
        (names.map f).lookup n =
          (names.lookup n).map fun j => if n = name then t.entries.size else j := by
    intro f hf names
    induction names with
    | nil => rfl
    | cons p rest ih =>
        obtain ⟨m, j⟩ := p
        rw [List.map_cons, hf, hcons]
        by_cases hm : n = m
        · by_cases hname : m = name <;> simp_all
        · by_cases hname : m = name <;> simp_all
  unfold number? register
  split
  next h =>
    rw [hmap _ fun _ _ => rfl]
    split
    next hn =>
      subst hn
      obtain ⟨i, hi⟩ := Option.isSome_iff_exists.1 h
      rw [number?] at hi
      rw [hi, Option.map_some]
    next => rw [Option.map_id']
  next h =>
    rw [List.lookup_append, hcons, List.lookup_nil]
    split
    next hn =>
      subst hn
      have hn : t.names.lookup n = none := Option.not_isSome_iff_eq_none.1 h
      rw [hn, Option.none_or]
    next => rw [Option.or_none]

/-- The next registration is free. -/
theorem get?_size : t.get? t.entries.size = none := by simp [get?]

theorem ne_size_of_get? {i : Nat} {d : Definition} (h : t.get? i = some d) : i ≠ t.entries.size := by
  rintro rfl
  rw [get?_size] at h
  cases h

theorem find?_of_contains {name : String} (h : t.contains name = false) : t.find? name = none := by
  rw [contains, Option.isSome_eq_false_iff, Option.isNone_iff_eq_none] at h
  rw [find?, h, Option.bind_none]

/-- The definition of a name is the latest one registered for it; the others keep theirs. -/
theorem find?_register (name : String) (d : Definition) {n : String} {d' : Definition}
    (h : t.find? n = some d') : (t.register name d).find? n = some (if n = name then d else d') := by
  obtain ⟨i, hi, hd'⟩ := Option.bind_eq_some_iff.1 h
  rw [find?, number?_register]
  split
  next => rw [Option.bind_some, get?_register, if_pos rfl]
  next => rw [hi, Option.bind_some, get?_register, if_neg (ne_size_of_get? hd'), hd']

@[simp] theorem contains_register (name : String) (d : Definition) (n : String) :
    (t.register name d).contains n = (n == name || t.contains n) := by
  rw [contains, number?_register, contains]
  by_cases hn : n = name <;> simp [hn]

/-! ## Narrowing -/

theorem get?_modify (t : DefinitionTable) (i j : Nat) (f : Definition → Definition) :
    (t.modify i f).get? j = if i = j then (t.get? j).map f else t.get? j :=
  Array.getElem?_modify

@[simp] theorem number?_modify (i : Nat) (f : Definition → Definition) (name : String) :
    (t.modify i f).number? name = t.number? name := rfl

@[simp] theorem contains_modify (i : Nat) (f : Definition → Definition) (name : String) :
    (t.modify i f).contains name = t.contains name := rfl

/-- A narrowed registration takes the place of the one before. -/
theorem get?_narrow {i : Nat} {d d' : Definition} (hd : t.get? i = some d) (j : Nat) :
    (t.modify i fun _ => d').get? j = if i = j then some d' else t.get? j := by
  rw [get?_modify]
  split
  next h => rw [← h, hd, Option.map_some]
  next => rfl

/-! ## What is read off a definition

What `φ` reads off definitions does not change when a name is met, if it does not tell that from a name
that is missing, nor when a type is inferred, if it does not look at types. -/

section Reading

variable {β : Type*} {φ : Option Definition → β} {name : String} {d : Definition}

theorem read_get?_register (hd : φ (some d) = φ none) (name : String) (i : Nat) :
    φ ((t.register name d).get? i) = φ (t.get? i) := by
  rw [get?_register]
  split
  next hi => rw [hd, hi, get?_size]
  next => rfl

theorem read_find?_register (h : t.contains name = false) (hd : φ (some d) = φ none) (n : String) :
    φ ((t.register name d).find? n) = φ (t.find? n) := by
  rw [find?, number?_register]
  split
  next hn => rw [hn, Option.bind_some, get?_register, if_pos rfl, find?_of_contains h, hd]
  next =>
    rw [find?]
    cases t.number? n with
    | none => rfl
    | some i => exact read_get?_register hd name i

theorem read_get?_narrow {i : Nat} {type : TypeName} (hd : t.get? i = some d)
    (h : φ (some (d.narrow type)) = φ (some d)) (j : Nat) :
    φ ((t.modify i fun _ => d.narrow type).get? j) = φ (t.get? j) := by
  rw [get?_narrow hd]
  split
  next hj => rw [h, ← hj, hd]
  next => rfl

theorem read_find?_narrow {i : Nat} {type : TypeName} (hd : t.get? i = some d)
    (h : φ (some (d.narrow type)) = φ (some d)) (n : String) :
    φ ((t.modify i fun _ => d.narrow type).find? n) = φ (t.find? n) := by
  rw [find?, number?_modify, find?]
  cases t.number? n with
  | none => exact congrArg φ rfl
  | some j => exact read_get?_narrow hd h j

end Reading

/-- The registration that inferring a type for an expression narrows. -/
def narrowable? (t : DefinitionTable) (e : Expr) (type : TypeName) : Option (Nat × Definition) :=
  e.definition?.bind fun i => (t.get? i).bind fun d =>
    if d.describes e && d.accepts type then some (i, d) else none

theorem narrowable?_eq_some {e : Expr} {type : TypeName} {i : Nat} {d : Definition} :
    t.narrowable? e type = some (i, d) ↔
      e.definition? = some i ∧ t.get? i = some d ∧ d.describes e = true ∧ d.accepts type = true := by
  simp only [narrowable?, Option.bind_eq_some_iff, Option.ite_none_right_eq_some, Option.some.injEq,
    Prod.mk.injEq, Bool.and_eq_true]
  constructor
  · rintro ⟨j, hj, x, hx, h, rfl, rfl⟩
    exact ⟨hj, hx, h⟩
  · rintro ⟨hi, hd, h⟩
    exact ⟨i, hi, d, hd, h, rfl, rfl⟩

end DefinitionTable

namespace Kernel

variable {k : Kernel}

/-- **Inferring a type narrows one registration or none**, and notes it in the journal. -/
theorem yields_infer_cases (e : Expr) (type : TypeName) (k : Kernel) :
    Yields Never (infer e type) k fun narrows k' =>
      narrows = false ∧ k.table.narrowable? e type = none ∧ k' = k ∨
        narrows = true ∧ ∃ i d journal, k.table.narrowable? e type = some (i, d) ∧
          k' = { k with table := k.table.modify i fun _ => d.narrow type, journal } := by
  unfold infer
  refine Yields.bind (P := fun t k' => t = k.table ∧ k' = k) ⟨rfl, rfl⟩ ?_
  rintro _ k ⟨rfl, rfl⟩
  rw [DefinitionTable.definitionOf]
  cases hi : e.definition? with
  | none => exact .inl ⟨rfl, by rw [DefinitionTable.narrowable?, hi]; rfl, rfl⟩
  | some i =>
      have hnone : ∀ {d}, k.table.get? i = some d → (d.describes e && d.accepts type) = false →
          k.table.narrowable? e type = none := by
        intro d hd h
        rw [DefinitionTable.narrowable?, hi, Option.bind_some, hd, Option.bind_some, h]
        rfl
      have hsome : ∀ {d}, k.table.get? i = some d → (d.describes e && d.accepts type) = true →
          k.table.narrowable? e type = some (i, d) := fun hd h =>
        DefinitionTable.narrowable?_eq_some.2 ⟨hi, hd, by simpa using h⟩
      rw [Option.bind_some]
      cases hd : k.table.get? i with
      | none =>
          exact .inl ⟨rfl, by rw [DefinitionTable.narrowable?, hi, Option.bind_some, hd]; rfl, rfl⟩
      | some d =>
          cases d with
          | symbol d =>
              simp only
              split
              next h => exact .inr ⟨rfl, i, _, _, hsome hd h, rfl⟩
              next h => exact .inl ⟨rfl, hnone hd (Bool.eq_false_iff.2 h), rfl⟩
          | function d =>
              simp only
              split
              next h => exact .inr ⟨rfl, i, _, _, hsome hd h, rfl⟩
              next h => exact .inl ⟨rfl, hnone hd (Bool.eq_false_iff.2 h), rfl⟩

end Kernel

end SymbolicAlgebra
