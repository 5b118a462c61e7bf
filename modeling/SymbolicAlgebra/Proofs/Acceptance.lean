import SymbolicAlgebra.Proofs.Registration
import SymbolicAlgebra.Proofs.Structure

/-!
# Proofs/Acceptance — operands that are taken for numbers

An expression is *taken* by a table if each of its symbols is accepted as a number and each of its
operators has a result that is.  Checking operands may narrow definitions, but only to types of
numbers (`Narrows`), and what was taken before stays accepted (`acceptsNumber_of_takesHead`).  So
`checkNumeric` gives taken operands back as they are.
-/

namespace SymbolicAlgebra

/-! ## Types of numbers -/

namespace TypeName

theorem isSubtype_number_iff {t : TypeName} : t.isSubtype .number = true ↔
    t = nothing ∨ t ∈ [number, complex, imaginary, real, rational, integer] := by
  cases t <;> simp [isSubtype, ancestors, parent]

theorem isSubtype_of_mem_ancestors {t u : TypeName} (h : u ∈ t.ancestors) : t.isSubtype u = true := by
  unfold isSubtype
  split
  next => rfl
  next =>
    split
    next ht =>
      subst ht
      simpa [ancestors, parent] using h
    next => exact List.contains_iff_mem.2 h

theorem isSubtype_refl (t : TypeName) : t.isSubtype t = true :=
  isSubtype_of_mem_ancestors (by cases t <;> simp [ancestors, parent])

theorem ancestors_pairwise (t : TypeName) :
    t.ancestors.Pairwise fun l r => r.isSubtype .number = true → l.isSubtype .number = true := by
  cases t with
  | other n => simp [ancestors, parent]
  | _ => decide +kernel

/-- What is left of the ancestors of a number type, as long as `number` is among it. -/
theorem head?_isSubtype {chain : List TypeName}
    (hp : chain.Pairwise fun l r => r.isSubtype .number = true → l.isSubtype .number = true)
    (hn : number ∈ chain) : (chain.head?.getD any).isSubtype .number = true := by
  cases chain with
  | nil => cases hn
  | cons c rest =>
      rcases List.mem_cons.1 hn with rfl | hn
      · exact isSubtype_number_iff.2 (.inr (by simp))
      · exact List.rel_of_pairwise_cons hp hn (isSubtype_refl number)

/-- **The widest of number types is a number type.** -/
theorem widen_isSubtype {types : List TypeName} (h : ∀ t ∈ types, t.isSubtype .number = true) :
    (widen types).isSubtype .number = true := by
  have hmem : ∀ t ∈ types.filter fun t => t != nothing && t != unknown,
      number ∈ t.ancestors := by
    intro t ht
    obtain ⟨ht, hne⟩ := List.mem_filter.1 ht
    rcases isSubtype_number_iff.1 (h t ht) with rfl | ht
    · simp at hne
    · simp only [List.mem_cons, List.not_mem_nil, or_false] at ht
      rcases ht with rfl | rfl | rfl | rfl | rfl | rfl <;> simp [TypeName.ancestors, TypeName.parent]
  rw [widen]
  split
  next =>
    have hu : types.contains unknown = false := by
      rw [Bool.eq_false_iff, ne_eq, List.contains_iff_mem]
      exact fun hu => absurd (h _ hu) (by simp [isSubtype])
    rw [hu]
    simp [isSubtype]
  next t rest heq =>
    rw [heq, List.forall_mem_cons] at hmem
    -- the fold only drops ancestors, and never `number`
    have hfold : ∀ (rest : List TypeName) (chain : List TypeName), (∀ t ∈ rest, number ∈ t.ancestors) →
        (chain.Pairwise fun l r => r.isSubtype .number = true → l.isSubtype .number = true) →
        number ∈ chain → ((rest.foldl (fun chain u => chain.filter u.ancestors.contains)
          chain).head?.getD any).isSubtype .number = true := by
      intro rest
      induction rest with
      | nil => exact fun chain _ => head?_isSubtype
      | cons u rest ih =>
          intro chain hrest hp hn
          rw [List.forall_mem_cons] at hrest
          refine ih _ hrest.2 (hp.filter _) (List.mem_filter.2 ⟨hn, ?_⟩)
          exact List.contains_iff_mem.2 hrest.1
    exact hfold rest t.ancestors hmem.2 (ancestors_pairwise t) hmem.1

end TypeName

namespace ResultRule

/-- Whether every result is a number. -/
def isNumeric : ResultRule → Bool
  | fixed t => t.isSubtype .number
  | first => false
  | _ => true

theorem numericType_isSubtype (types : List TypeName) :
    (numericType types).isSubtype .number = true := by
  rw [numericType]
  split
  next h => exact TypeName.widen_isSubtype (List.all_eq_true.1 h)
  next => simp [TypeName.isSubtype, TypeName.ancestors, TypeName.parent]

theorem integerToRational_isSubtype {t : TypeName} (h : t.isSubtype .number = true) :
    (integerToRational t).isSubtype .number = true := by
  rw [integerToRational]
  split
  next => simp [TypeName.isSubtype, TypeName.ancestors, TypeName.parent]
  next => exact h

theorem apply_isSubtype {rule : ResultRule} (h : rule.isNumeric = true) (types : List TypeName) :
    (rule.apply types).isSubtype .number = true := by
  have hreal : TypeName.isSubtype .real .number = true := TypeName.isSubtype_number_iff.2 (by simp)
  have hnumber : TypeName.isSubtype .number .number = true := TypeName.isSubtype_refl _
  cases rule with
  | fixed t => exact h
  | numeric => exact numericType_isSubtype types
  | realOrNumber =>
      rw [apply]
      split
      · exact hreal
      · exact hnumber
  | quotient => exact integerToRational_isSubtype (numericType_isSubtype types)
  | power =>
      rcases types with _ | ⟨base, _ | ⟨exponent, _ | ⟨x, rest⟩⟩⟩
      · exact hnumber
      · exact hnumber
      · rw [apply]
        split
        · exact integerToRational_isSubtype (numericType_isSubtype _)
        · exact hnumber
      · exact hnumber
  | first => cases h
  | arity =>
      rw [apply]
      split
      · simp [TypeName.isSubtype, TypeName.ancestors, TypeName.parent]
      · exact hreal

end ResultRule

theorem Number.type_isSubtype (v : Number) : v.type.isSubtype .number = true := by
  cases v with
  | real x =>
      rw [type, Scalar.type]
      split
      · simp [TypeName.isSubtype, TypeName.ancestors, TypeName.parent]
      split
      · simp [TypeName.isSubtype, TypeName.ancestors, TypeName.parent]
      split <;> simp [TypeName.isSubtype, TypeName.ancestors, TypeName.parent]
  | complex x y =>
      rw [type]
      split <;> simp [TypeName.isSubtype, TypeName.ancestors, TypeName.parent]

/-! ## What inference does to a table -/

/-- A definition, and what it may become: its type may be narrowed to a type of numbers. -/
inductive Narrowed : Definition → Definition → Prop
  | same (d : Definition) : Narrowed d d
  | symbol (s : SymbolDefinition) {type : TypeName} : type.isSubtype .number = true →
      Narrowed (.symbol s) (.symbol { s with type })
  | function (g : FunctionDefinition) {type : TypeName} : type.isSubtype .number = true →
      Narrowed (.function g)
        (.function { g with signature := { g.signature with result := .fixed type } })

theorem Narrowed.narrow {d d' : Definition} {type : TypeName} (htype : type.isSubtype .number = true)
    (h : Narrowed d d') : Narrowed d (d'.narrow type) := by
  cases h with
  | same =>
      cases d with
      | symbol s => exact .symbol s htype
      | function g => exact .function g htype
  | symbol s _ => exact .symbol s htype
  | function g _ => exact .function g htype

/-- A table, and what it may become when operands are checked. -/
structure Narrows (t t' : DefinitionTable) : Prop where
  names : t'.names = t.names
  entry : ∀ i, Option.Rel Narrowed (t.get? i) (t'.get? i)

theorem Narrows.refl (t : DefinitionTable) : Narrows t t where
  names := rfl
  entry := fun i => by
    cases t.get? i with
    | none => exact .none
    | some d => exact .some (.same d)

namespace Narrows

variable {t t' : DefinitionTable}

theorem slot (h : Narrows t t') (d : Option Nat) :
    Option.Rel Narrowed (d.bind t.get?) (d.bind t'.get?) := by
  cases d with
  | none => exact .none
  | some i => exact h.entry i

theorem number? (h : Narrows t t') (f : String) : t'.number? f = t.number? f := by
  rw [DefinitionTable.number?, h.names, DefinitionTable.number?]

theorem find? (h : Narrows t t') (f : String) : Option.Rel Narrowed (t.find? f) (t'.find? f) := by
  rw [DefinitionTable.find?, DefinitionTable.find?, h.number?]
  exact h.slot _

/-- The definition of a function, up to its result. -/
theorem function? (h : Narrows t t') {f : String} {g : FunctionDefinition}
    (hg : t.find? f = some (.function g)) : ∃ result,
      t'.find? f = some (.function { g with signature := { g.signature with result } }) ∧
        (result = g.signature.result ∨ result.isNumeric = true) := by
  have hrel := h.find? f
  rw [hg] at hrel
  cases hf : t'.find? f with
  | none =>
      rw [hf] at hrel
      cases hrel
  | some d =>
      rw [hf] at hrel
      cases hrel with
      | some hd =>
          cases hd with
          | same => exact ⟨_, rfl, .inl rfl⟩
          | function _ htype => exact ⟨_, rfl, .inr htype⟩

theorem functionNumber? (h : Narrows t t') (f : String) :
    t'.functionNumber? f = t.functionNumber? f := by
  have hrel := h.find? f
  rw [DefinitionTable.functionNumber?, DefinitionTable.functionNumber?, h.number?]
  generalize t.find? f = o, t'.find? f = o' at hrel
  cases hrel with
  | none => rfl
  | some hd => cases hd <;> rfl

/-- One more definition is narrowed. -/
theorem modify (h : Narrows t t') {i : Nat} {d d' : Definition} (hd : t'.get? i = some d)
    (hnarrow : ∀ d₀, Narrowed d₀ d → Narrowed d₀ d') : Narrows t (t'.modify i fun _ => d') where
  names := h.names
  entry := fun j => by
    have hj := h.entry j
    rw [DefinitionTable.get?_narrow hd]
    split
    next hij =>
      subst hij
      rw [hd] at hj
      generalize t.get? i = o at hj
      cases hj with
      | some hj => exact .some (hnarrow _ hj)
    next => exact hj

end Narrows

/-! ## Expressions that are taken for numbers -/

/-- Whether the result of an operator is taken for a number. -/
def takesResult : Option Definition → Bool
  | some (.function g) => g.signature.result.isNumeric || g.signature.result = .fixed .unknown
  | _ => true

/-- Whether the symbol or the operator of an expression is taken for a number. -/
def Expr.takesHead (t : DefinitionTable) : Expr → Bool
  | .number _ => true
  | .symbol n d c => Kernel.acceptsNumber t (.symbol n d c)
  | .application _ _ d _ => takesResult (d.bind t.get?)
  | .error _ _ _ => false

mutual

/-- Whether an expression is canonical and exact throughout, and each of its symbols and operators is
taken for a number. -/
def Expr.isTaken (t : DefinitionTable) : Expr → Bool
  | .number v => v.isProper
  | .symbol n d c => c && Kernel.acceptsNumber t (.symbol n d c)
  | .application _ ops d c => c && takesResult (d.bind t.get?) && allTaken t ops
  | .error _ _ _ => false

def Expr.allTaken (t : DefinitionTable) : List Expr → Bool
  | [] => true
  | e :: rest => isTaken t e && allTaken t rest

end

namespace Expr

variable {t t' : DefinitionTable}

theorem allTaken_iff {es : List Expr} : allTaken t es = true ↔ ∀ e ∈ es, e.isTaken t = true := by
  induction es with
  | nil => simp [allTaken]
  | cons e rest ih => simp [allTaken, ih]

mutual

theorem proper_of_isTaken : ∀ {e : Expr}, e.isTaken t = true → e.isOver Number.isProper = true
  | number _, h => h
  | symbol _ _ _, _ => rfl
  | application _ ops _ _, h => by
      rw [isTaken, Bool.and_eq_true] at h
      exact proper_of_allTaken h.2
  | error _ _ _, h => by cases h

theorem proper_of_allTaken : ∀ {es : List Expr}, allTaken t es = true →
    allOver Number.isProper es = true
  | [], _ => rfl
  | e :: rest, h => by
      rw [allTaken, Bool.and_eq_true] at h
      rw [allOver, Bool.and_eq_true]
      exact ⟨proper_of_isTaken h.1, proper_of_allTaken h.2⟩

end

theorem isCanonical_of_isTaken {e : Expr} (h : e.isTaken t = true) : e.isCanonical = true := by
  cases e with
  | number v => rfl
  | symbol n d c =>
      rw [isTaken, Bool.and_eq_true] at h
      exact h.1
  | application f ops d c =>
      rw [isTaken, Bool.and_eq_true, Bool.and_eq_true] at h
      exact h.1.1
  | error a b x => rfl

theorem takesHead_of_isTaken {e : Expr} (h : e.isTaken t = true) : e.takesHead t = true := by
  cases e with
  | number v => rfl
  | symbol n d c =>
      rw [isTaken, Bool.and_eq_true] at h
      exact h.2
  | application f ops d c =>
      rw [isTaken, Bool.and_eq_true, Bool.and_eq_true] at h
      exact h.1.2
  | error a b x => cases h

/-- What decides whether a symbol is accepted is its definition. -/
theorem acceptsNumber_symbol {n : String} {d : Option Nat} {c : Bool}
    (h : d.bind t.get? = d.bind t'.get?) :
    Kernel.acceptsNumber t (.symbol n d c) = Kernel.acceptsNumber t' (.symbol n d c) := by
  have htype : t.typeOf (.symbol n d c) = t'.typeOf (.symbol n d c) := by
    rw [DefinitionTable.typeOf, DefinitionTable.typeOf, h]
  have hdefinition : t.definitionOf (.symbol n d c) = t'.definitionOf (.symbol n d c) := h
  simp only [Kernel.acceptsNumber, DefinitionTable.isNumeric, Kernel.isInferred, Kernel.isHeld, htype,
    hdefinition]
  rfl

theorem acceptsNumber_of_isNumeric {e : Expr} (h : t.isNumeric e = true) :
    Kernel.acceptsNumber t e = true := by
  simp [Kernel.acceptsNumber, h]

/-- The name of a function is not accepted as a number. -/
theorem acceptsNumber_of_function {n : String} {d : Option Nat} {c : Bool} {g : FunctionDefinition}
    (h : d.bind t.get? = some (.function g)) :
    Kernel.acceptsNumber t (.symbol n d c) = false := by
  have htype : t.typeOf (.symbol n d c) = .function := by
    rw [DefinitionTable.typeOf, h]
  have hdefinition : t.definitionOf (.symbol n d c) = some (.function g) := h
  have hsub : TypeName.isSubtype .function .number = false := by
    simp [TypeName.isSubtype, TypeName.ancestors, TypeName.parent]
  have hcompatible : TypeName.isCompatible .number .function = false := by
    simp [TypeName.isCompatible, TypeName.isSubtype, TypeName.ancestors, TypeName.parent]
  have hcollection : Kernel.isCollection (.symbol n d c) = false := rfl
  simp [Kernel.acceptsNumber, DefinitionTable.isNumeric, Kernel.isHeld, htype, hdefinition, hsub,
    hcompatible, hcollection, operator]

section Application

variable {f : String} {ops : List Expr} {d : Option Nat} {c : Bool}

theorem acceptsNumber_of_unknown (h : t.typeOf (.application f ops d c) = .unknown) :
    Kernel.acceptsNumber t (.application f ops d c) = true := by
  simp [Kernel.acceptsNumber, h]

/-- An application whose head is no function has no type of its own. -/
theorem acceptsNumber_of_no_function (h : ∀ g, d.bind t.get? ≠ some (.function g)) :
    Kernel.acceptsNumber t (.application f ops d c) = true := by
  refine acceptsNumber_of_unknown ?_
  rw [DefinitionTable.typeOf]
  split
  next g hg => exact absurd hg (h g)
  next => rfl

/-- An application is accepted if the result of its function is a number, or is left open. -/
theorem acceptsNumber_of_result {g : FunctionDefinition} (hg : d.bind t.get? = some (.function g))
    (h : (g.signature.result.isNumeric || g.signature.result = .fixed .unknown) = true) :
    Kernel.acceptsNumber t (.application f ops d c) = true := by
  rcases Bool.or_eq_true_iff.1 h with hn | hu
  · refine acceptsNumber_of_isNumeric ?_
    rw [DefinitionTable.isNumeric, DefinitionTable.typeOf, hg]
    exact ResultRule.apply_isSubtype hn _
  · refine acceptsNumber_of_unknown ?_
    rw [DefinitionTable.typeOf, hg]
    simp only [of_decide_eq_true hu]
    rfl

end Application

/-- **What is taken for a number is accepted**, also after definitions were narrowed. -/
theorem acceptsNumber_of_takesHead (ht : Narrows t t') {e : Expr} (h : e.takesHead t = true) :
    Kernel.acceptsNumber t' e = true := by
  cases e with
  | number v => exact acceptsNumber_of_isNumeric (Number.type_isSubtype v)
  | symbol n d c =>
      rw [takesHead] at h
      have hrel := ht.slot d
      generalize ho : d.bind t.get? = o, ho' : d.bind t'.get? = o' at hrel
      cases hrel with
      | none => rw [← acceptsNumber_symbol (ho.trans ho'.symm), h]
      | some hd =>
          cases hd with
          | same => rw [← acceptsNumber_symbol (ho.trans ho'.symm), h]
          | symbol s htype =>
              refine acceptsNumber_of_isNumeric ?_
              rwa [DefinitionTable.isNumeric, DefinitionTable.typeOf, ho']
          | function g htype =>
              rw [acceptsNumber_of_function ho] at h
              cases h
  | application f ops d c =>
      rw [takesHead] at h
      have hrel := ht.slot d
      generalize ho : d.bind t.get? = o, ho' : d.bind t'.get? = o' at hrel h
      cases hrel with
      | none => exact acceptsNumber_of_no_function fun g => by simp [ho']
      | @some d₀ _ hd =>
          cases hd with
          | same =>
              cases d₀ with
              | symbol s => exact acceptsNumber_of_no_function fun g => by simp [ho']
              | function g => exact acceptsNumber_of_result ho' h
          | symbol s htype => exact acceptsNumber_of_no_function fun g => by simp [ho']
          | function g htype =>
              exact acceptsNumber_of_result ho' (by simp [ResultRule.isNumeric, htype])
  | error a b x => cases h

end Expr

/-! ## Checking operands -/

namespace Kernel

variable {E : Fault → Prop} {k k₀ : Kernel} {t : DefinitionTable}

/-- A kernel, and what it may become when operands are checked. -/
structure Inferred (t : DefinitionTable) (k k' : Kernel) : Prop where
  table : Narrows t k'.table
  settings : k'.settings = k.settings
  pool : k'.pool = k.pool

theorem yields_infer {e : Expr} {type : TypeName} (htype : type.isSubtype .number = true)
    (hk : Inferred t k₀ k) : Yields E (infer e type) k fun _ k' => Inferred t k₀ k' := by
  refine (yields_infer_cases e type k).imp (fun _ h => h.elim) ?_
  rintro _ _ (⟨-, -, rfl⟩ | ⟨-, i, d, journal, hd, rfl⟩)
  · exact hk
  · have hentry := (DefinitionTable.narrowable?_eq_some.1 hd).2.1
    exact ⟨hk.table.modify hentry fun _ => .narrow htype, hk.settings, hk.pool⟩

theorem yields_inferAll {ops : List Expr} {type : TypeName} {skip : Bool}
    (htype : type.isSubtype .number = true) (hk : Inferred t k₀ k) :
    Yields E (inferAll ops type skip) k fun _ k' => Inferred t k₀ k' := by
  refine yields_forM hk fun e k hk => ?_
  split
  next =>
    split
    next =>
      exact yields_forM hk fun x k hk => (yields_infer htype hk).bind fun _ k' hk' => hk'
    next => exact hk
  next => exact (yields_infer htype hk).bind fun _ k' hk' => hk'

theorem groupType_isSubtype (t : DefinitionTable) (ops : List Expr) :
    (groupType t ops).isSubtype .number = true := by
  rw [groupType]
  split <;> simp [TypeName.isSubtype, TypeName.ancestors, TypeName.parent]

/-- **Operands that are errors or taken for numbers pass their check**, if there are as many as there
should be. -/
theorem yields_checkNumeric {ops : List Expr} {count : Option Nat} (hk : Inferred t k₀ k)
    (hcount : count.getD ops.length = ops.length) (hflat : Expr.flatten none ops = ops)
    (hops : ∀ e ∈ ops, e.isValid = true → e.takesHead t = true) :
    Yields E (checkNumeric ops count none) k fun rs k' => rs = ops ∧ Inferred t k₀ k' := by
  rw [checkNumeric, hflat]
  refine Yields.bind (P := fun u k' => u = k'.table ∧ Inferred t k₀ k') ⟨rfl, hk⟩ ?_
  rintro _ k ⟨rfl, hk⟩
  have hchecked : (ops.map (checkNumber k.table)).map (·.1) = ops := by
    rw [List.map_map]
    refine (List.map_congr_left fun e he => ?_).trans (List.map_id ops)
    cases hv : e.isValid with
    | false => simp [checkNumber, hv]
    | true =>
        simp [checkNumber, hv, Expr.acceptsNumber_of_takesHead hk.table (hops e he hv)]
  have hfit : (fit ops.length ops).drop ops.length = [] := by simp [fit]
  have hgroup : ∀ u, (groupType u ops).isSubtype .number = true := fun u => groupType_isSubtype u ops
  refine Yields.bind (P := fun _ k' => Inferred t k₀ k') hk fun strict k hk => ?_
  cases strict with
  | false =>
      refine Yields.bind (yields_inferAll (hgroup _) hk) fun _ k hk => ?_
      exact ⟨rfl, hk⟩
  | true =>
      simp only [hcount, List.take_length, hchecked, Nat.min_self, hfit, List.append_nil]
      rw [if_neg (by decide)]
      split
      next =>
        refine Yields.bind (yields_inferAll (hgroup _) hk) fun _ k hk => ?_
        exact ⟨rfl, hk⟩
      next => exact ⟨rfl, hk⟩

end Kernel

end SymbolicAlgebra
