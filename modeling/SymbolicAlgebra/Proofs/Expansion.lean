import SymbolicAlgebra.Proofs.Acceptance
import SymbolicAlgebra.Proofs.ExpansionValue

/-!
# Proofs/Expansion — `expand` and `expandAll` preserve meaning

Expressions of sums, products, signs, quotients, whole powers and numeric functions of one operand
keep their value when they are expanded.  `expand` only calculates.  `expandAll` also builds every
subexpression anew, which checks its operands: there each symbol has to be one that is taken for a
number (`expandAll_of_truth`).  `expansion_value` states both.
-/

namespace SymbolicAlgebra

/-! ## Numeric functions of a table -/

namespace FunctionDefinition

/-- The number of operands, if it is fixed. -/
def count? (d : FunctionDefinition) : Option Nat :=
  if d.signature.isFixedArity then some d.signature.required.length else none

/-- Whether operands are built and checked, and the result is a number. -/
def isCalculated (d : FunctionDefinition) : Bool :=
  !d.isLazy.truthy && d.signature.result.isNumeric

/-- Whether a numeric function is built by its signature. -/
def fits (d : FunctionDefinition) (count : Option Nat) (associative : Bool) : Bool :=
  d.isCalculated && d.numeric.truthy && d.canonical.isNone &&
    d.associative.truthy == associative && d.count? == count

/-- Whether a function is built as a negation. -/
def isNegation (d : FunctionDefinition) : Bool :=
  d.isCalculated &&
    match d.canonical with
    | some (.canonicalForm .negation) => true
    | _ => false

end FunctionDefinition

namespace DefinitionTable

/-- Whether a name stands for a function with a property. -/
def holds (t : DefinitionTable) (f : String) (p : FunctionDefinition → Bool) : Bool :=
  match t.find? f with
  | some (.function d) => p d
  | _ => false

/-- Whether the operators of arithmetic are numeric functions of the usual form. -/
def isArithmetic (t : DefinitionTable) : Bool :=
  t.holds "Add" (·.fits none true) && t.holds "Multiply" (·.fits none true) &&
    t.holds "Divide" (·.fits (some 2) false) && t.holds "Power" (·.fits (some 2) false) &&
    t.holds "Negate" (·.isNegation)

/-- Whether a name stands for a numeric function of one operand. -/
def isElementary (t : DefinitionTable) (f : String) : Bool :=
  t.holds f (·.fits (some 1) false) && !Expr.isWildcardName f && (Relation.ofOperator? f).isNone

theorem exists_of_holds {t : DefinitionTable} {f : String} {p : FunctionDefinition → Bool}
    (h : t.holds f p = true) : ∃ d, t.find? f = some (.function d) ∧ p d = true := by
  rw [holds] at h
  split at h
  next d hd => exact ⟨d, hd, h⟩
  next => cases h

end DefinitionTable

/-- Sums and products of at least one operand, and functions of one. -/
def Shape.elementary (p : String → Bool) : Shape where
  Allows := fun f ops => f ∈ ["Negate", "Divide", "Power"] ∨
    f ∈ ["Add", "Multiply"] ∧ ops ≠ [] ∨ p f = true ∧ ops.length = 1
  bare := by simp
  sum := fun h => .inr (.inl ⟨by decide, h⟩)
  product := fun h => .inr (.inl ⟨by decide, h⟩)
  negation := .inl (by decide)
  quotient := .inl (by decide)
  power := fun _ => .inl (by decide)
  power_again := fun _ => .inl (by decide)

mutual

/-- Whether an expression is canonical and exact throughout. -/
def Expr.isCanonicalWithin : Expr → Bool
  | .number v => v.isProper
  | .symbol _ _ c => c
  | .application _ ops _ c => c && allCanonicalWithin ops
  | .error _ _ _ => false

def Expr.allCanonicalWithin : List Expr → Bool
  | [] => true
  | e :: rest => isCanonicalWithin e && allCanonicalWithin rest

end

namespace Expr

theorem allCanonicalWithin_iff {es : List Expr} :
    allCanonicalWithin es = true ↔ ∀ e ∈ es, e.isCanonicalWithin = true := by
  induction es with
  | nil => simp [allCanonicalWithin]
  | cons e rest ih => simp [allCanonicalWithin, ih]

mutual

theorem proper_of_isCanonicalWithin : ∀ {e : Expr}, e.isCanonicalWithin = true →
    e.isOver Number.isProper = true
  | number _, h => h
  | symbol _ _ _, _ => rfl
  | application _ ops _ _, h => by
      rw [isCanonicalWithin, Bool.and_eq_true] at h
      exact proper_of_allCanonicalWithin h.2
  | error _ _ _, h => by cases h

theorem proper_of_allCanonicalWithin : ∀ {es : List Expr}, allCanonicalWithin es = true →
    allOver Number.isProper es = true
  | [], _ => rfl
  | e :: rest, h => by
      rw [allCanonicalWithin, Bool.and_eq_true] at h
      rw [allOver, Bool.and_eq_true]
      exact ⟨proper_of_isCanonicalWithin h.1, proper_of_allCanonicalWithin h.2⟩

end

theorem isCanonical_of_isCanonicalWithin {e : Expr} (h : e.isCanonicalWithin = true) :
    e.isCanonical = true := by
  cases e with
  | number v => rfl
  | symbol n d c => exact h
  | application f ops d c =>
      rw [isCanonicalWithin, Bool.and_eq_true] at h
      exact h.1
  | error a b x => rfl

end Expr

namespace Kernel

variable {K : Type*} [Field K] {I : Interpretation K} {E : Fault → Prop} {t : DefinitionTable}
  {k : Kernel}

theorem expandable_elementary (t : DefinitionTable) : (Shape.elementary t.isElementary).Expandable where
  filled := by
    rintro f ops (hf | ⟨-, hops⟩ | ⟨-, hops⟩) hf'
    · rcases hf' with rfl | rfl <;> exact absurd hf (by decide)
    · exact hops
    · rintro rfl
      cases hops
  noRelation := by
    rintro f ops (hf | ⟨hf, -⟩ | ⟨hf, -⟩)
    · simp only [List.mem_cons, List.not_mem_nil, or_false] at hf
      rcases hf with rfl | rfl | rfl <;> rfl
    · simp only [List.mem_cons, List.not_mem_nil, or_false] at hf
      rcases hf with rfl | rfl <;> rfl
    · rw [DefinitionTable.isElementary, Bool.and_eq_true, Option.isNone_iff_eq_none] at hf
      exact hf.2

/-- No summand collapses where sums and products have operands. -/
theorem safe_of_expandable {R : Realm} {S : Shape} (hS : S.Expandable) : R.Safe I S Never := by
  refine .inr ?_
  rintro e he ⟨r, hr, hempty⟩
  obtain ⟨b, _, ⟨m, rfl, hb, -, -⟩, hbe⟩ := Realm.exists_of_collapses
    (Defined.flatten (a := some "Multiply") (List.forall_mem_singleton.2 he)) hr hempty
  obtain ⟨d, c, rfl⟩ := Expr.eq_of_isEmptyProduct hbe
  rcases hb.application_cases with ⟨-, hA⟩ | ⟨hf, -⟩ | ⟨hf, -⟩ | ⟨hf, -⟩
  · exact hS.filled hA (.inr rfl) rfl
  · exact absurd hf (by decide)
  · exact absurd hf (by decide)
  · exact absurd hf (by decide)

/-! ## The realm of what is taken for numbers -/

theorem takesResult_of_find? {f : String} {d : FunctionDefinition}
    (hd : t.find? f = some (.function d)) (hresult : d.isCalculated = true) :
    takesResult ((t.functionNumber? f).bind t.get?) = true := by
  have hslot : (t.functionNumber? f).bind t.get? = some (.function d) := by
    rw [DefinitionTable.functionNumber?, hd]
    exact hd
  rw [FunctionDefinition.isCalculated, Bool.and_eq_true] at hresult
  rw [hslot, takesResult, hresult.2]
  rfl

theorem isTaken_application {f : String} {ops : List Expr} {d : FunctionDefinition}
    (hd : t.find? f = some (.function d)) (hresult : d.isCalculated = true)
    (hops : ∀ e ∈ ops, e.isTaken t = true) :
    (Expr.application f ops (t.functionNumber? f) true).isTaken t = true := by
  rw [Expr.isTaken, takesResult_of_find? hd hresult, Expr.allTaken_iff.2 hops]
  rfl

theorem exists_of_isArithmetic (ht : t.isArithmetic = true) {f : String}
    (hf : f ∈ arithmeticOperators) :
    ∃ d, t.find? f = some (.function d) ∧ d.isCalculated = true := by
  simp only [DefinitionTable.isArithmetic, Bool.and_eq_true] at ht
  obtain ⟨⟨⟨⟨hadd, hmul⟩, hdiv⟩, hpow⟩, hneg⟩ := ht
  have hfits : ∀ {f count associative}, t.holds f (·.fits count associative) = true →
      ∃ d, t.find? f = some (.function d) ∧ d.isCalculated = true := by
    intro f count associative h
    obtain ⟨d, hd, hd'⟩ := DefinitionTable.exists_of_holds h
    simp only [FunctionDefinition.fits, Bool.and_eq_true] at hd'
    exact ⟨d, hd, hd'.1.1.1.1⟩
  simp only [arithmeticOperators, List.mem_cons, List.not_mem_nil, or_false] at hf
  rcases hf with rfl | rfl | rfl | rfl | rfl
  · exact hfits hadd
  · exact hfits hmul
  · obtain ⟨d, hd, hd'⟩ := DefinitionTable.exists_of_holds hneg
    rw [FunctionDefinition.isNegation, Bool.and_eq_true] at hd'
    exact ⟨d, hd, hd'.1⟩
  · exact hfits hdiv
  · exact hfits hpow

/-- All expressions that a table takes for numbers, in a kernel whose table may be narrower. -/
def Realm.taken (ht : t.isArithmetic = true) (k : Kernel) (hk : Narrows t k.table) : Realm where
  table := k.table
  settings := k.settings
  Good := fun e => e.isTaken t = true
  Arranged := List.Perm
  ArrangedTerms := List.Perm
  proper := Expr.proper_of_isTaken
  good_number := fun h => h
  good_node := fun hf hops => by
    obtain ⟨d, hd, hd'⟩ := exists_of_isArithmetic ht hf
    rw [hk.functionNumber?]
    exact isTaken_application hd hd' hops
  good_operand := fun h => by
    rw [Expr.isTaken, Bool.and_eq_true] at h
    exact Expr.allTaken_iff.1 h.2
  arranged := fun _ => (sortPowers_perm k.table _).map _
  arranged_perm := fun h => h
  arrangedTerms := fun _ h => (sortTerms_perm h).map _
  arrangedTerms_perm := fun h => h

/-- A kernel whose table is as wide as `t` or narrower, and whose pool offers for an expression that
is taken only such that are. -/
structure Ready (t : DefinitionTable) (k : Kernel) : Prop where
  table : Narrows t k.table
  pool : ∀ x ∈ k.pool, ∀ e : Expr, e.isTaken t = true → e.same x = true → x.isTaken t = true

section Ready

variable (ht : t.isArithmetic = true)

theorem Ready.holds (hk : Ready t k) : (Realm.taken ht k hk.table).Holds k :=
  ⟨rfl, rfl, hk.pool⟩

theorem Ready.of_holds {k₀ : Kernel} {hk₀ : Narrows t k₀.table}
    (h : (Realm.taken ht k₀ hk₀).Holds k) : Ready t k := by
  refine ⟨?_, h.pool⟩
  rw [h.table]
  exact hk₀

theorem Realm.taken_canonical (hk : Narrows t k.table) : (Realm.taken ht k hk).Canonical :=
  fun _ => Expr.isCanonical_of_isTaken

end Ready

/-! ## Building anew -/

theorem fits_of_narrows {t' : DefinitionTable} (h : Narrows t t') {f : String} {count : Option Nat}
    {associative : Bool} (hf : t.holds f (·.fits count associative) = true) :
    ∃ d, t'.find? f = some (.function d) ∧ d.fits count associative = true := by
  obtain ⟨d, hd, hfits⟩ := DefinitionTable.exists_of_holds hf
  obtain ⟨result, hd', hresult⟩ := h.function? hd
  refine ⟨_, hd', ?_⟩
  rcases hresult with rfl | hresult
  · exact hfits
  · simp only [FunctionDefinition.fits, FunctionDefinition.isCalculated, Bool.and_eq_true] at hfits ⊢
    exact ⟨⟨⟨⟨⟨hfits.1.1.1.1.1, hresult⟩, hfits.1.1.1.2⟩, hfits.1.1.2⟩, hfits.1.2⟩, hfits.2⟩

theorem isNegation_of_narrows {t' : DefinitionTable} (h : Narrows t t') {f : String}
    (hf : t.holds f (·.isNegation) = true) :
    ∃ d, t'.find? f = some (.function d) ∧ d.isNegation = true := by
  obtain ⟨d, hd, hneg⟩ := DefinitionTable.exists_of_holds hf
  obtain ⟨result, hd', hresult⟩ := h.function? hd
  refine ⟨_, hd', ?_⟩
  rcases hresult with rfl | hresult
  · exact hneg
  · simp only [FunctionDefinition.isNegation, FunctionDefinition.isCalculated,
      Bool.and_eq_true] at hneg ⊢
    exact ⟨⟨hneg.1.1, hresult⟩, hneg.2⟩

theorem yields_buildFrom {f : String} {ops : List Expr} {d : FunctionDefinition}
    {P : Expr → Kernel → Prop} (hw : Expr.isWildcardName f = false)
    (hd : k.table.find? f = some (.function d)) (hlazy : d.isLazy.truthy = false)
    (hops : ∀ e ∈ ops, e.isCanonical = true) (h : Yields E (applyFunction f d ops) k P) :
    Yields E (buildFrom f ops) k P := by
  refine yields_build_of_contains hw (DefinitionTable.contains_of_find? hd) ?_
  rw [hd, applyMet, hlazy, if_neg Bool.false_ne_true, canonicalizeAll_of_isCanonical hops, pure_bind]
  exact h

/-- An expression in the domain of expansion. -/
structure Settled (t : DefinitionTable) (I : Interpretation K) (e : Expr) : Prop where
  taken : e.isTaken t = true
  defined : Defined I (.elementary t.isElementary) e

/-- The operation ends with an expression of value `x` that is taken, in a kernel that is ready, or
with a fault in `E`. -/
def Settles (t : DefinitionTable) (I : Interpretation K) (E : Fault → Prop) (a : Action Expr)
    (k : Kernel) (x : K) : Prop :=
  Yields E a k fun r k' => Ready t k' ∧ Settled t I r ∧ r.value I = x

theorem settles_of_gives {ht : t.isArithmetic = true} {k₀ : Kernel} {hk₀ : Narrows t k₀.table}
    {a : Action Expr} {x : K}
    (h : (Realm.taken ht k₀ hk₀).Gives I (.elementary t.isElementary) E a k x) :
    Settles t I E a k x :=
  h.mono fun _ _ hr => ⟨.of_holds ht hr.1, ⟨hr.2.1, hr.2.2.1⟩, hr.2.2.2⟩

theorem flatten_none {ops : List Expr} {S : Shape} (hops : ∀ e ∈ ops, Defined I S e) :
    Expr.flatten none ops = ops := by
  refine Expr.flatten_of_isLeaf fun e he => ?_
  cases e with
  | application f ops' d c =>
      have hf := (hops _ he).ne_sequence
      simp [Expr.isLeaf, Expr.isSpliced, hf]
  | _ => rfl

/-- **A numeric function is applied to operands that pass their check as they are.** -/
theorem yields_applyChecked (hk : Narrows t k.table) {f : String} {ops es : List Expr}
    {d : FunctionDefinition} {count : Option Nat} {associative : Bool} {P : Expr → Kernel → Prop}
    (hd : d.fits count associative = true)
    (hes : Expr.flatten (if associative then some f else none) ops = es)
    (hcount : count.getD es.length = es.length) (hflat : Expr.flatten none es = es)
    (hops : ∀ e ∈ es, e.isValid = true → e.takesHead t = true)
    (h : ∀ k', Inferred t k k' → Yields E (apply f es) k' P) :
    Yields E (applyChecked f d ops) k P := by
  simp only [FunctionDefinition.fits, Bool.and_eq_true, beq_iff_eq] at hd
  obtain ⟨⟨⟨⟨-, hnumeric⟩, -⟩, hassociative⟩, hcount'⟩ := hd
  have hinferred : Inferred t k k := ⟨hk, rfl, rfl⟩
  rw [applyChecked, hassociative, hes, hnumeric, if_pos rfl]
  refine Yields.bind (yields_checkNumeric hinferred ?_ hflat hops) ?_
  · rw [FunctionDefinition.count?] at hcount'
    rw [hcount', hcount]
  rintro rs k' ⟨rfl, hk'⟩
  exact h k' hk'

/-- An application of a numeric function that is built anew. -/
theorem yields_buildFrom_of_fits (hk : Narrows t k.table) {f : String} {ops es : List Expr}
    {count : Option Nat} {associative : Bool} {P : Expr → Kernel → Prop}
    (hf : t.holds f (·.fits count associative) = true) (hw : Expr.isWildcardName f = false)
    (hcanonical : ∀ e ∈ ops, e.isCanonical = true)
    (hes : Expr.flatten (if associative then some f else none) ops = es)
    (hcount : count.getD es.length = es.length) (hflat : Expr.flatten none es = es)
    (hops : ∀ e ∈ es, e.isValid = true → e.takesHead t = true)
    (h : ∀ k', Inferred t k k' → Yields E (apply f es) k' P) :
    Yields E (buildFrom f ops) k P := by
  obtain ⟨d, hd, hfits⟩ := fits_of_narrows hk hf
  have hfits' := hfits
  simp only [FunctionDefinition.fits, FunctionDefinition.isCalculated, Bool.and_eq_true,
    Bool.not_eq_true', Option.isNone_iff_eq_none] at hfits'
  obtain ⟨⟨⟨⟨⟨hlazy, -⟩, -⟩, hform⟩, -⟩, -⟩ := hfits'
  refine yields_buildFrom hw hd hlazy hcanonical ?_
  rw [applyFunction, hform]
  exact yields_applyChecked hk hfits hes hcount hflat hops h

theorem Ready.of_inferred (hk : Ready t k) {k' : Kernel} (h : Inferred t k k') : Ready t k' :=
  ⟨h.table, by rw [h.pool]; exact hk.pool⟩

/-- An application that is built anew. -/
theorem settles_buildFrom (ht : t.isArithmetic = true) (hk : Ready t k) {f : String}
    {ops : List Expr} {count : Option Nat} {associative : Bool}
    (hf : t.holds f (·.fits count associative) = true) (hw : Expr.isWildcardName f = false)
    (hops : ∀ e ∈ ops, Settled t I e)
    {es : List Expr} (hes : Expr.flatten (if associative then some f else none) ops = es)
    (hcount : count.getD es.length = es.length)
    (hnode : Defined I (.elementary t.isElementary) (.node f es)) :
    Settles t I E (buildFrom f ops) k ((Expr.node f es).value I) := by
  have hflat : ∀ e ∈ es, Settled t I e := by
    rw [← hes]
    exact fun e he => ⟨(Realm.taken ht k hk.table).good_flatten (fun e he => (hops e he).taken) e he,
      Defined.flatten (fun e he => (hops e he).defined) e he⟩
  refine yields_buildFrom_of_fits hk.table hf hw
    (fun e he => Expr.isCanonical_of_isTaken (hops e he).taken) hes hcount
    (flatten_none fun e he => (hflat e he).defined)
    (fun e he _ => Expr.takesHead_of_isTaken (hflat e he).taken) fun k' hk' => ?_
  have hready := hk.of_inferred hk'
  obtain ⟨d, hd, hfits⟩ := DefinitionTable.exists_of_holds hf
  simp only [FunctionDefinition.fits, Bool.and_eq_true] at hfits
  have hgood : (Expr.application f es (k'.table.functionNumber? f) true).isTaken t = true := by
    rw [hready.table.functionNumber?]
    exact isTaken_application hd hfits.1.1.1.1 fun e he => (hflat e he).taken
  refine yields_apply ((Realm.yields_intern (hready.holds ht) hgood).mono fun r k₂ h => ?_)
  refine ⟨.of_holds ht h.1, ⟨h.2.1, .of_bare ?_⟩, ?_⟩
  · rw [h.2.2, Expr.bare_application, ← Expr.bare_application f es none true]
    exact hnode.bare
  · rw [← Expr.value_bare, h.2.2, Expr.bare_application, ← Expr.bare_application f es none true,
      Expr.value_bare]

theorem flatten_ne_nil {f : String} {ops : List Expr} {S : Shape} (hS : S.Expandable)
    (hf : f = "Add" ∨ f = "Multiply") (hne : ops ≠ []) (hops : ∀ e ∈ ops, Defined I S e) :
    Expr.flatten (some f) ops ≠ [] := by
  have hempty : (Expr.flatten (some f) ops).isEmpty = ops.isEmpty := by
    refine Expr.flatten_invariant (F := List.isEmpty) (g := (· && ·)) (P := Defined I S)
      (fun xs _ => by cases xs <;> rfl) (fun f ops d c _ h => h.operand) (fun g ops d c hg h => ?_) hops
    obtain rfl := (Expr.isSpliced_some.1 hg).resolve_left h.ne_sequence
    rcases h.application_cases with ⟨-, hA⟩ | ⟨rfl, -⟩ | ⟨rfl, -⟩ | ⟨rfl, -⟩
    · simpa using hS.filled hA hf
    · exact absurd hf (by decide)
    · exact absurd hf (by decide)
    · exact absurd hf (by decide)
  rw [ne_eq, ← List.isEmpty_iff, hempty, List.isEmpty_iff]
  exact hne

/-- A sum or a product that is built anew. -/
theorem settles_associative (ht : t.isArithmetic = true) (hk : Ready t k) {f : String}
    {ops : List Expr} (hf : f = "Add" ∨ f = "Multiply") (hne : ops ≠ [])
    (hops : ∀ e ∈ ops, Settled t I e) :
    Settles t I E (buildFrom f ops) k ((Expr.node f (Expr.flatten (some f) ops)).value I) := by
  have hd : ∀ e ∈ ops, Defined I (.elementary t.isElementary) e := fun e he => (hops e he).defined
  have hflat := flatten_ne_nil (expandable_elementary t) hf hne hd
  have hfits : t.holds f (·.fits none true) = true := by
    simp only [DefinitionTable.isArithmetic, Bool.and_eq_true] at ht
    rcases hf with rfl | rfl
    · exact ht.1.1.1.1
    · exact ht.1.1.1.2
  have hnode : Defined I (.elementary t.isElementary) (.node f (Expr.flatten (some f) ops)) := by
    refine .plain none true ?_ (.inr (.inl ⟨by simpa using hf, hflat⟩)) (Defined.flatten hd)
    rcases hf with rfl | rfl <;> decide
  refine settles_buildFrom ht hk hfits ?_ hops rfl rfl hnode
  rcases hf with rfl | rfl <;> decide +kernel

/-- A function of a fixed number of operands. -/
theorem settles_fixed (ht : t.isArithmetic = true) (hk : Ready t k) {f : String} {ops : List Expr}
    (hops : ∀ e ∈ ops, Settled t I e) (hnode : Defined I (.elementary t.isElementary) (.node f ops))
    (hf : t.holds f (·.fits (some ops.length) false) = true) (hw : Expr.isWildcardName f = false) :
    Settles t I E (buildFrom f ops) k ((Expr.node f ops).value I) :=
  settles_buildFrom ht hk hf hw hops (flatten_none fun e he => (hops e he).defined) rfl hnode

/-- The opposite of an operand that was checked: an opposite number, the operand of a negation, else a
negation. -/
def oppositeForm : Expr → Action (Option Expr)
  | .number v => do return some (← makeNumber (← number v.neg))
  | e =>
      if e.operator == "Negate" && e.isValid then return e.op1?
      else do return some (← apply "Negate" [e])

/-- A negation that is built anew. -/
theorem yields_buildFrom_of_negation (ht : t.isArithmetic = true) (hk : Narrows t k.table) {a : Expr}
    {P : Expr → Kernel → Prop} (hcanonical : a.isCanonical = true)
    (hflat : Expr.flatten none [a] = [a]) (hvalid : a.isValid = true → a.takesHead t = true)
    (h : ∀ k', Inferred t k k' →
      Yields E (oppositeForm a) k' fun o k'' => ∃ r, o = some r ∧ P r k'') :
    Yields E (buildFrom "Negate" [a]) k P := by
  have hneg : t.holds "Negate" (·.isNegation) = true := by
    simp only [DefinitionTable.isArithmetic, Bool.and_eq_true] at ht
    exact ht.2
  obtain ⟨d, hd, hd'⟩ := isNegation_of_narrows hk hneg
  rw [FunctionDefinition.isNegation, FunctionDefinition.isCalculated, Bool.and_eq_true,
    Bool.and_eq_true, Bool.not_eq_true'] at hd'
  obtain ⟨⟨hlazy, -⟩, hform⟩ := hd'
  have hform' : d.canonical = some (.canonicalForm .negation) := by
    split at hform
    next h => exact h
    next => cases hform
  refine yields_buildFrom (by decide +kernel) hd hlazy (List.forall_mem_singleton.2 hcanonical) ?_
  have hinferred : Inferred t k k := ⟨hk, rfl, rfl⟩
  have hopposite : Yields E (negationForm [a]) k fun o k' => ∃ r, o = some r ∧ P r k' := by
    rw [negationForm]
    refine Yields.bind (yields_checkNumeric hinferred rfl hflat
      (List.forall_mem_singleton.2 hvalid)) ?_
    rintro rs k' ⟨rfl, hk'⟩
    cases a <;> exact h k' hk'
  rw [applyFunction, hform']
  refine hopposite.bind ?_
  rintro _ k' ⟨r, rfl, hr⟩
  exact hr

/-- The opposite of an operand that is no number. -/
theorem yields_opposite (ht : t.isArithmetic = true) (hk : Ready t k) {a : Expr}
    (ha : Settled t I a) :
    Yields E (if a.operator == "Negate" && a.isValid then return a.op1?
        else return some (← apply "Negate" [a])) k fun o k' =>
      ∃ r, o = some r ∧ Ready t k' ∧ Settled t I r ∧ r.value I = -a.value I := by
  split
  next h =>
    rw [Bool.and_eq_true, beq_iff_eq] at h
    cases a with
    | application f ops d c =>
        obtain rfl : f = "Negate" := h.1
        obtain ⟨x, rfl⟩ := ha.defined.negation_inv
        have htaken := (Realm.taken ht k hk.table).good_operand ha.taken x (by simp)
        refine Yields.pure ⟨x, rfl, hk, ⟨htaken, ha.defined.operand x (by simp)⟩, ?_⟩
        rw [Expr.value_negation, neg_neg]
    | number v => exact absurd h.1 (by simp [Expr.operator])
    | symbol n d c => exact absurd h.1 (by simp [Expr.operator])
    | error _ _ _ => cases ha.taken
  next =>
    have hgives := Realm.gives_apply (E := E) (hk.holds ht) (by decide)
      (List.forall_mem_singleton.2 ha.taken) (Defined.negation none true ha.defined)
    refine Yields.bind (settles_of_gives hgives) fun r k' hr => Yields.pure ⟨r, rfl, hr.1, hr.2.1, ?_⟩
    rw [hr.2.2, Expr.value_negation]

theorem yields_oppositeForm (ht : t.isArithmetic = true) (hk : Ready t k) {a : Expr}
    (ha : Settled t I a) : Yields E (oppositeForm a) k fun o k' =>
      ∃ r, o = some r ∧ Ready t k' ∧ Settled t I r ∧ r.value I = -a.value I := by
  cases a with
  | number v =>
      obtain ⟨q, rfl⟩ := Number.eq_ofRat ha.defined.rational
      refine Yields.bind (P := fun w k' => w = .ofRat (-q) ∧ Ready t k')
        (yields_number_ok (Number.neg_ofRat q) ⟨rfl, hk⟩) ?_
      rintro _ k' ⟨rfl, hready⟩
      have hgives := Realm.gives_makeNumber (q := -q) (I := I) (E := E)
        (S := .elementary t.isElementary) (hready.holds ht)
      refine Yields.bind (settles_of_gives hgives) fun r k' hr => ?_
      refine Yields.pure ⟨r, rfl, hr.1, hr.2.1, ?_⟩
      rw [hr.2.2]
      simp
  | symbol n d c => exact yields_opposite ht hk ha
  | application f ops d c => exact yields_opposite ht hk ha
  | error _ _ _ => cases ha.taken

theorem settles_negation (ht : t.isArithmetic = true) (hk : Ready t k) {a : Expr}
    (ha : Settled t I a) : Settles t I E (buildFrom "Negate" [a]) k (-a.value I) := by
  have hflat : Expr.flatten none [a] = [a] :=
    flatten_none (S := .elementary t.isElementary) (I := I)
      (List.forall_mem_singleton.2 ha.defined)
  exact yields_buildFrom_of_negation ht hk.table (Expr.isCanonical_of_isTaken ha.taken) hflat
    (fun _ => Expr.takesHead_of_isTaken ha.taken)
    fun k' hk' => yields_oppositeForm ht (hk.of_inferred hk') ha

/-! ## Expansion of all parts -/

/-- What an operand may become: it has the same value, and a number stays. -/
structure Rebuilt (t : DefinitionTable) (I : Interpretation K) (e r : Expr) : Prop where
  settled : Settled t I r
  value : r.value I = e.value I
  number : ∀ v, e = .number v → r = e

theorem map_value_of_rebuilt {es rs : List Expr} (h : List.Forall₂ (Rebuilt t I) es rs) :
    rs.map (Expr.value I) = es.map (Expr.value I) := by
  induction h with
  | nil => rfl
  | cons hr _ ih => rw [List.map_cons, List.map_cons, hr.value, ih]

theorem settled_of_rebuilt {es rs : List Expr} (h : List.Forall₂ (Rebuilt t I) es rs) :
    ∀ r ∈ rs, Settled t I r := by
  induction h with
  | nil => simp
  | cons hr _ ih => exact List.forall_mem_cons.2 ⟨hr.settled, ih⟩

theorem rebuilt_singleton {a : Expr} {rs : List Expr} (h : List.Forall₂ (Rebuilt t I) [a] rs) :
    ∃ r, rs = [r] ∧ Rebuilt t I a r := by
  obtain ⟨r, _, hr, hnil, rfl⟩ := List.forall₂_cons_left_iff.1 h
  rw [List.forall₂_nil_left_iff] at hnil
  exact ⟨r, by rw [hnil], hr⟩

theorem rebuilt_pair {a b : Expr} {rs : List Expr} (h : List.Forall₂ (Rebuilt t I) [a, b] rs) :
    ∃ r s, rs = [r, s] ∧ Rebuilt t I a r ∧ Rebuilt t I b s := by
  obtain ⟨r, _, hr, hrest, rfl⟩ := List.forall₂_cons_left_iff.1 h
  obtain ⟨s, rfl, hs⟩ := rebuilt_singleton hrest
  exact ⟨r, s, rfl, hr, hs⟩

/-- **An application of operands that kept their values keeps its value.** -/
theorem settles_rebuilt (ht : t.isArithmetic = true) (hk : Ready t k) {f : String}
    {ops rs : List Expr} {d : Option Nat} {c : Bool} (he : Settled t I (.application f ops d c))
    (h : List.Forall₂ (Rebuilt t I) ops rs) :
    Settles t I E (buildFrom f rs) k ((Expr.application f ops d c).value I) := by
  have hrs := settled_of_rebuilt h
  have hvalues := map_value_of_rebuilt h
  have hfixed := ht
  simp only [DefinitionTable.isArithmetic, Bool.and_eq_true] at hfixed
  have hd := he.defined
  cases hd with
  | plain _ _ hf hA hops =>
      rcases hA with hA | ⟨hA, hne⟩ | ⟨hA, hlen⟩
      · exact absurd hA fun hA => hf (by simp_all)
      · have hne' : rs ≠ [] := by
          rintro rfl
          rw [List.forall₂_nil_right_iff] at h
          exact hne h
        have hrd : ∀ r ∈ rs, Defined I (.elementary t.isElementary) r := fun r hr => (hrs r hr).defined
        simp only [List.mem_cons, List.not_mem_nil, or_false] at hA
        have hbuild := settles_associative (E := E) ht hk hA hne' hrs
        rcases hA with rfl | rfl
        · rwa [Expr.value_sum, Defined.flatten_sum hrd, hvalues, ← Expr.value_sum] at hbuild
        · rwa [Expr.value_product, Defined.flatten_prod hrd, hvalues, ← Expr.value_product] at hbuild
      · obtain ⟨x, rfl⟩ := List.length_eq_one_iff.1 hlen
        obtain ⟨r, rfl, hr⟩ := rebuilt_singleton h
        have hA' := hA
        simp only [DefinitionTable.isElementary, Bool.and_eq_true, Bool.not_eq_true'] at hA'
        have hnode : Defined I (.elementary t.isElementary) (.node f [r]) :=
          .plain none true hf (.inr (.inr ⟨hA, rfl⟩)) (List.forall_mem_singleton.2 hr.settled.defined)
        have hbuild := settles_fixed (E := E) ht hk hrs hnode hA'.1.1 hA'.1.2
        rw [Expr.value_application] at hbuild ⊢
        rw [← hvalues]
        exact hbuild
  | negation _ _ ha =>
      obtain ⟨r, rfl, hr⟩ := rebuilt_singleton h
      rw [Expr.value_negation, ← hr.value]
      exact settles_negation ht hk hr.settled
  | quotient _ _ ha hb hb0 =>
      obtain ⟨r, s, rfl, hr, hs⟩ := rebuilt_pair h
      have hnode : Defined I (.elementary t.isElementary) (.node "Divide" [r, s]) :=
        .quotient none true hr.settled.defined hs.settled.defined (by rwa [hs.value])
      have hbuild := settles_fixed (E := E) ht hk hrs hnode hfixed.1.1.2 (by decide +kernel)
      rwa [Expr.value_quotient, hr.value, hs.value, ← Expr.value_quotient] at hbuild
  | power _ _ hb hb0 hA =>
      obtain ⟨r, s, rfl, hr, hs⟩ := rebuilt_pair h
      obtain rfl := hs.number _ rfl
      have hnode : Defined I (.elementary t.isElementary) (.node "Power" [r, _]) :=
        .power none true hr.settled.defined (by rwa [hr.value]) (.inl (by decide))
      have hbuild := settles_fixed (E := E) ht hk hrs hnode hfixed.1.2 (by decide +kernel)
      rwa [Expr.value_power, hr.value, ← Expr.value_power] at hbuild

mutual

/-- **Expansion of all parts keeps the value.** -/
theorem yields_expandAll? [CharZero K] (ht : t.isArithmetic = true) : ∀ {e : Expr} {k : Kernel},
    Ready t k → Settled t I e → Yields Never (expandAll? e) k fun o k' =>
      Ready t k' ∧ Rebuilt t I e (o.getD e)
  | .number v, k, hk, he => Yields.pure ⟨hk, he, rfl, fun _ _ => rfl⟩
  | .symbol n d c, k, hk, he => Yields.pure ⟨hk, he, rfl, fun _ _ => rfl⟩
  | .error _ _ _, k, hk, he => Yields.pure ⟨hk, he, rfl, fun _ _ => rfl⟩
  | .application f ops d c, k, hk, he => by
      have hops : ∀ x ∈ ops, Settled t I x := fun x hx =>
        ⟨(Realm.taken ht k hk.table).good_operand he.taken x hx, he.defined.operand x hx⟩
      unfold expandAll?
      refine (yields_expandAllEach ht hk hops).bind fun rs k₁ hrs => ?_
      refine Yields.bind (settles_rebuilt ht hrs.1 he hrs.2) fun r k₂ hr => ?_
      have hfine : (Realm.taken ht k₂ hr.1.table).Fine I (.elementary t.isElementary) r :=
        ⟨hr.2.1.taken, hr.2.1.defined⟩
      have hexpand := Realm.givesOption_expand? (Realm.taken_canonical ht hr.1.table)
        (safe_of_expandable (expandable_elementary t)) (expandable_elementary t) (hr.1.holds ht) hfine
      refine Yields.bind hexpand fun o k₃ ho => Yields.pure ⟨.of_holds ht ho.1, ?_⟩
      cases o with
      | none => exact ⟨hr.2.1, hr.2.2, by rintro v ⟨⟩⟩
      | some x =>
          obtain ⟨hx, hxv⟩ := ho.2 x rfl
          exact ⟨⟨hx.good, hx.defined⟩, hxv.trans hr.2.2, by rintro v ⟨⟩⟩

theorem yields_expandAllEach [CharZero K] (ht : t.isArithmetic = true) :
    ∀ {es : List Expr} {k : Kernel}, Ready t k → (∀ e ∈ es, Settled t I e) →
      Yields Never (expandAllEach es) k fun rs k' => Ready t k' ∧ List.Forall₂ (Rebuilt t I) es rs
  | [], k, hk, _ => Yields.pure ⟨hk, .nil⟩
  | e :: rest, k, hk, hes => by
      rw [List.forall_mem_cons] at hes
      refine (yields_expandAll? ht hk hes.1).bind fun o k₁ ho => ?_
      refine (yields_expandAllEach ht ho.1 hes.2).bind fun rs k₂ hrs => ?_
      exact Yields.pure ⟨hrs.1, .cons ho.2 hrs.2⟩

end

/-! ## The main results -/

/-- All expressions that are canonical and exact throughout. -/
def Realm.canonical (k : Kernel) : Realm where
  table := k.table
  settings := k.settings
  Good := fun e => e.isCanonicalWithin = true
  Arranged := List.Perm
  ArrangedTerms := List.Perm
  proper := Expr.proper_of_isCanonicalWithin
  good_number := fun h => h
  good_node := fun _ hops => Expr.allCanonicalWithin_iff.2 hops
  good_operand := fun h => by
    rw [Expr.isCanonicalWithin, Bool.and_eq_true] at h
    exact Expr.allCanonicalWithin_iff.1 h.2
  arranged := fun _ => (sortPowers_perm k.table _).map _
  arranged_perm := fun h => h
  arrangedTerms := fun _ h => (sortTerms_perm h).map _
  arrangedTerms_perm := fun h => h

/-- **Expansion preserves meaning.** -/
theorem expansion_value [CharZero K] (I : Interpretation K) (k : Kernel) (e : Expr)
    (hd : Defined I (.elementary k.table.isElementary) e) :
    (e.isCanonicalWithin = true → k.Offers Expr.isCanonicalWithin →
      ∃ r k', (expand e).run.run k = (.ok r, k') ∧ r.value I = e.value I ∧
        k'.Offers Expr.isCanonicalWithin) ∧
    (k.table.isArithmetic = true → e.isTaken k.table = true → k.Offers (Expr.isTaken k.table) →
      ∃ r k', (expandAll e).run.run k = (.ok r, k') ∧ r.value I = e.value I ∧
        k'.Offers (Expr.isTaken k.table)) := by
  have hS := expandable_elementary k.table
  constructor
  · intro he hpool
    have hholds : (Realm.canonical k).Holds k := ⟨rfl, rfl, hpool⟩
    have hfine : (Realm.canonical k).Fine I (.elementary k.table.isElementary) e := ⟨he, hd⟩
    have hexpand := Realm.givesOption_expand? (fun _ => Expr.isCanonical_of_isCanonicalWithin)
      (safe_of_expandable hS) hS hholds hfine
    obtain ⟨r, k', hr, hk', -, -, hv⟩ := (hexpand.getD hfine).exists_run
    refine ⟨r, k', ?_, hv, hk'.pool⟩
    rw [expand, canonicalize_of_isCanonical (Expr.isCanonical_of_isCanonicalWithin he), pure_bind]
    exact hr
  · intro ht he hpool
    have hready : Ready k.table k := ⟨.refl k.table, hpool⟩
    have hexpand : Yields Never (do return (← expandAll? e).getD e) k fun r k' =>
        Ready k.table k' ∧ Rebuilt k.table I e r :=
      (yields_expandAll? ht hready ⟨he, hd⟩).bind fun o k' ho => Yields.pure ho
    obtain ⟨r, k', hr, hk', hre⟩ := hexpand.exists_run
    refine ⟨r, k', ?_, hre.value, hk'.pool⟩
    rw [expandAll, canonicalize_of_isCanonical (Expr.isCanonical_of_isTaken he), pure_bind]
    exact hr

/-- `(π + 1) (sin π)² / π` in the standard definitions. -/
def sineProduct : Expr :=
  .application "Divide"
    [.application "Multiply"
      [.application "Add" [.symbol "Pi" (some 0) true, .number .one] (some 6) true,
        .application "Power"
          [.application "Sin" [.symbol "Pi" (some 0) true] (some 14) true, .number (.ofInt 2)]
          (some 11) true] (some 7) true,
      .symbol "Pi" (some 0) true] (some 10) true

theorem sineProduct_defined :
    Defined ones (.elementary standard.table.isElementary) sineProduct := by
  have hpi : Defined ones (.elementary standard.table.isElementary) (.symbol "Pi" (some 0) true) :=
    .symbol "Pi" (some 0) true
  have hsum : Defined ones (.elementary standard.table.isElementary)
      (.application "Add" [.symbol "Pi" (some 0) true, .number .one] (some 6) true) :=
    .plain (some 6) true (by decide) (Shape.sum _ (by simp)) (by simpa using ⟨hpi, .number 1⟩)
  have hsine : Defined ones (.elementary standard.table.isElementary)
      (.application "Sin" [.symbol "Pi" (some 0) true] (some 14) true) :=
    .plain (some 14) true (by decide) (.inr (.inr ⟨by rw [standard_eq]; decide +kernel, rfl⟩))
      (by simpa using hpi)
  have hpower := Defined.power (n := 2) (some 11) true hsine (by simp) (.inl (by decide))
  have hproduct : Defined ones (.elementary standard.table.isElementary)
      (.application "Multiply" [_, _] (some 7) true) :=
    .plain (some 7) true (by decide) (Shape.product _ (by simp)) (by simpa using ⟨hsum, hpower⟩)
  exact .quotient (some 10) true hproduct hpi (by simp [ones])

theorem expansion_value_sineProduct :
    (∃ r k', (expand sineProduct).run.run standard = (.ok r, k') ∧
      r.value ones = sineProduct.value ones ∧ k'.Offers Expr.isCanonicalWithin) ∧
    ∃ r k', (expandAll sineProduct).run.run standard = (.ok r, k') ∧
      r.value ones = sineProduct.value ones ∧ k'.Offers (Expr.isTaken standard.table) := by
  have h := expansion_value ones standard sineProduct sineProduct_defined
  have hpool : standard.pool.isEmpty = true := List.isEmpty_iff.2 standard_pool
  exact ⟨h.1 (by decide) (offers_of_isEmpty hpool),
    h.2 (by rw [standard_eq]; decide +kernel) (by rw [standard_eq]; decide +kernel)
      (offers_of_isEmpty hpool)⟩

/-- A sum of a truth value and a number, as addition builds it: it does not check its operands. -/
def truthSum : Expr :=
  .application "Add" [.symbol "True" (some 3) true, .number .one] (some 6) true

/-- **Building anew refuses a symbol that is no number.** -/
theorem expandAll_of_truth :
    truthSum.isValid = true ∧ truthSum.isCanonicalWithin = true ∧
      Defined ones (.elementary standard.table.isElementary) truthSum ∧
      ∃ r k', (expandAll truthSum).run.run standard = (.ok r, k') ∧ r.isValid = false ∧
        r.value ones ≠ truthSum.value ones := by
  refine ⟨by decide, by decide, ?_, ?_⟩
  · exact .plain (some 6) true (by decide) (Shape.sum _ (by simp))
      (by simpa using ⟨.symbol "True" (some 3) true, .number 1⟩)
  · have hrun : ((expandAll truthSum).run.run standard).1.toOption.map
        (fun r => (r.isValid, r.value ones)) = some (false, 1) := by
      rw [standard_eq]
      decide +kernel
    rcases heq : (expandAll truthSum).run.run standard with ⟨f | r, k'⟩
    · rw [heq] at hrun
      cases hrun
    · rw [heq] at hrun
      have hr : (r.isValid, r.value ones) = (false, 1) := Option.some.inj hrun
      obtain ⟨hvalid, hvalue⟩ := Prod.mk.inj hr
      refine ⟨r, k', rfl, hvalid, ?_⟩
      rw [hvalue]
      simp [truthSum, ones]

end Kernel

end SymbolicAlgebra
