import SymbolicAlgebra.Proofs.Acceptance
import SymbolicAlgebra.Proofs.Holding
import SymbolicAlgebra.Proofs.Regularity

/-!
# Proofs/Settlement — expressions that would be built again as they are

A settled expression carries the definitions of the moment, and each of its operators would take its
operands again and infer nothing from them, now and in every table that the table grows to
(`Expr.IsSettled`).  A check that passes settles: what it inferred is final (`Expr.IsFinal`), and an
operand that was accepted with an open type is accepted with the type that was inferred
(`Remains.of_infers`).  So building settled expressions in regular tables gives settled expressions
(`Kernel.settlement`).
-/

namespace SymbolicAlgebra

open Kernel

variable {t t₁ t' : DefinitionTable}

/-! ## Settled expressions -/

/-- The type of an expression is final: it is the same, and is not narrowed, in every table that the
table grows to. -/
def Expr.IsFinal (t : DefinitionTable) (e : Expr) : Prop :=
  ∀ t', t.Grown t' → t'.typeOf e = t.typeOf e ∧ ∀ type, t'.narrowable? e type = none

theorem Expr.IsFinal.grown {e : Expr} (he : e.IsFinal t) (h : t.Grown t') : e.IsFinal t' :=
  fun t'' h' => by
    rw [(he t' h).1]
    exact he t'' (h.trans h')

/-- Operands that the form of their operator's own leaves alone. -/
structure Irreducible (f : String) (ops : List Expr) : Prop where
  negate : f = "Negate" → ∀ x, ops = [x] →
    x.isNumber = false ∧ (x.operator == "Negate" && x.isValid) = false
  rational : f = "Rational" → ∀ n m, ops = [.number n, .number m] → (n.isExact && m.isExact) = false
  complex : f = "Complex" → ∀ x y, ops ≠ [.number (.real x), .number (.real y)]

/-- Operands that a function takes for good. -/
structure Remains (t : DefinitionTable) (f : String) (d : FunctionDefinition) (ops : List Expr) :
    Prop where
  leaves : Expr.flatten (splices f d) ops = ops
  accepts : ∀ t', t.Grown t' → t'.Accepts d ops
  final : d.numeric.truthy = true → ∀ e ∈ ops, e.IsFinal t
  irreducible : Irreducible f ops

/-- Operands that an operator is applied to in canonical form. -/
def Fits (t : DefinitionTable) (f : String) (ops : List Expr) : Prop :=
  if f = "Hold" then ∀ e ∈ ops, e.isHeldBack = true
  else
    (∀ e ∈ ops, e.isCanonical = true) ∧
      ∀ d, t.find? f = some (.function d) → Expr.allValid ops = true → Remains t f d ops

namespace Expr

mutual

/-- Whether the canonical parts of an expression carry the definitions that their names stand for, and
would be built again as they are.  Wildcards have no definition. -/
def IsSettled (t : DefinitionTable) : Expr → Prop
  | symbol n d c => c = true →
      isWildcardName n = true ∧ d = none ∨ t.contains n = true ∧ d = t.number? n
  | application f ops d c => AllSettled t ops ∧ (c = true →
      (isWildcardName f = true ∧ d = none ∨ t.contains f = true ∧ d = t.functionNumber? f) ∧
        Fits t f ops)
  | _ => True

def AllSettled (t : DefinitionTable) : List Expr → Prop
  | [] => True
  | e :: rest => IsSettled t e ∧ AllSettled t rest

end

theorem allSettled_iff {es : List Expr} : AllSettled t es ↔ ∀ e ∈ es, e.IsSettled t := by
  induction es with
  | nil => simp [AllSettled]
  | cons e rest ih => simp [AllSettled, ih]

/-- Settled, and in canonical form. -/
structure Rests (t : DefinitionTable) (e : Expr) : Prop where
  settled : e.IsSettled t
  canonical : e.isCanonical = true

end Expr

/-! ## Growth -/

theorem Remains.grown {f : String} {d : FunctionDefinition} {result : ResultRule} {ops : List Expr}
    (h : t.Grown t')
    (hd : Remains t f { d with signature := { d.signature with result } } ops) : Remains t' f d ops where
  leaves := hd.leaves
  accepts t'' h' :=
    have haccepts := hd.accepts t'' (h.trans h')
    ⟨haccepts.takes, haccepts.still⟩
  final hn e he := (hd.final hn e he).grown h
  irreducible := hd.irreducible

theorem Fits.grown (ht : t.IsSound) (h : t.Grown t') {f : String} {ops : List Expr}
    (hf : t.contains f = true ∨ t'.contains f = false) (hops : Fits t f ops) : Fits t' f ops := by
  unfold Fits at hops ⊢
  split
  next hhold => rwa [if_pos hhold] at hops
  next hhold =>
    rw [if_neg hhold] at hops
    refine ⟨hops.1, fun d hd hvalid => ?_⟩
    rcases hf with hf | hf
    · obtain ⟨result, hd'⟩ := h.function_of_contains ht hf hd
      exact (hops.2 _ hd' hvalid).grown h
    · rw [DefinitionTable.contains_of_find? hd] at hf
      cases hf

namespace Expr

mutual

/-- **What is settled stays settled.** -/
theorem IsSettled.grown (ht : t.IsSound) (ht' : t'.IsRegular) (h : t.Grown t') :
    ∀ {e : Expr}, e.IsSettled t → e.IsSettled t'
  | number _, _ => trivial
  | error _ _ _, _ => trivial
  | symbol n d c, he => fun hc => (he hc).imp_right fun hn =>
      ⟨h.contains hn.1, hn.2.trans (h.number? hn.1).symm⟩
  | application f ops d c, he => by
      refine ⟨AllSettled.grown ht ht' h he.1, fun hc => ?_⟩
      obtain ⟨hd, hops⟩ := he.2 hc
      refine ⟨hd.imp_right fun hf => ⟨h.contains hf.1, ?_⟩, hops.grown ht h ?_⟩
      · exact hf.2.trans ((h.keeps ht).function hf.1).symm
      · exact hd.elim (fun hf => .inr (ht'.wildcards hf.1)) fun hf => .inl hf.1

theorem AllSettled.grown (ht : t.IsSound) (ht' : t'.IsRegular) (h : t.Grown t') :
    ∀ {es : List Expr}, AllSettled t es → AllSettled t' es
  | [], _ => trivial
  | _ :: _, hes => ⟨IsSettled.grown ht ht' h hes.1, AllSettled.grown ht ht' h hes.2⟩

end

theorem Rests.grown (ht : t.IsSound) (ht' : t'.IsRegular) (h : t.Grown t') {e : Expr}
    (he : e.Rests t) : e.Rests t' := ⟨he.settled.grown ht ht' h, he.canonical⟩

/-- Operands of an operator that does not hold them back. -/
theorem Rests.operand {f : String} {ops : List Expr} {d : Option Nat} {c : Bool} (hf : f ≠ "Hold")
    (he : (application f ops d c).Rests t) : ∀ e ∈ ops, e.Rests t := by
  obtain ⟨⟨hops, happlied⟩, hc⟩ := he
  obtain ⟨-, hfits⟩ := happlied hc
  rw [Fits, if_neg hf] at hfits
  exact fun e he => ⟨allSettled_iff.1 hops e he, hfits.1 e he⟩

/-- The elements of a list among them. -/
theorem rests_reached {ops : List Expr} (hops : ∀ e ∈ ops, e.Rests t) :
    ∀ e ∈ reached ops, e.Rests t := by
  intro x hx
  obtain ⟨e, he, hx⟩ := List.mem_flatMap.1 hx
  split at hx
  next hlist =>
    cases e with
    | application f es d c =>
        obtain rfl : f = "List" := by simpa [isCollection, isApplicationOf] using hlist
        exact (hops _ he).operand (by decide) x hx
    | _ => cases hlist
  next =>
    rw [List.mem_singleton] at hx
    exact hx ▸ hops e he

theorem valid_reached {ops : List Expr} (hops : ∀ e ∈ ops, e.isValid = true) :
    ∀ e ∈ reached ops, e.isValid = true := by
  intro x hx
  obtain ⟨e, he, hx⟩ := List.mem_flatMap.1 hx
  split at hx
  next hlist =>
    cases e with
    | application f es d c => exact allValid_iff.1 (hops _ he) x hx
    | _ => cases hlist
  next =>
    rw [List.mem_singleton] at hx
    exact hx ▸ hops e he

/-- The definition of an expression that is settled, if it has one. -/
theorem Rests.definition (ht : t.IsSound) {e : Expr} (he : e.Rests t) :
    e.definition? = none ∨ ∃ i d, e.definition? = some i ∧ t.get? i = some d := by
  obtain ⟨he, hc⟩ := he
  cases e with
  | number _ => exact .inl rfl
  | error _ _ _ => exact .inl rfl
  | symbol n d c =>
      refine (he hc).imp (fun h => h.2) fun ⟨hn, hd⟩ => ?_
      obtain ⟨x, hx⟩ := Option.isSome_iff_exists.1 (ht n hn)
      obtain ⟨i, hi, hget⟩ := Option.bind_eq_some_iff.1 hx
      exact ⟨i, x, hd.trans hi, hget⟩
  | application f ops d c =>
      rcases (he.2 hc).1 with h | ⟨-, hd⟩
      · exact .inl h.2
      · cases hi : t.functionNumber? f with
        | none => exact .inl (hd.trans hi)
        | some i =>
            obtain ⟨x, hx, -⟩ := DefinitionTable.find?_of_functionNumber? hi
            exact .inr ⟨i, _, hd.trans hi, hx⟩

end Expr

/-! ## Final types -/

namespace DefinitionTable

/-- Whether a type can be narrowed is up to the definition that an expression was built with. -/
theorem narrowable?_eq_none_of {e : Expr} {type : TypeName} (h : t'.definitionOf e = t.definitionOf e)
    (hnone : t.narrowable? e type = none) : t'.narrowable? e type = none := by
  unfold narrowable? at hnone ⊢
  unfold definitionOf at h
  cases hi : e.definition? with
  | none => rfl
  | some i =>
      rw [hi, Option.bind_some] at hnone
      rw [hi, Option.bind_some, Option.bind_some] at h
      rw [Option.bind_some, h]
      cases hd : t.get? i with
      | none => rfl
      | some d =>
          rw [hd, Option.bind_some] at hnone
          rw [Option.bind_some]
          split at hnone
          next => cases hnone
          next hno => rw [if_neg hno]

/-- A definition that describes an expression and accepts a type is narrowed to it. -/
theorem narrowable?_ne_none {e : Expr} {d : Definition} {type : TypeName}
    (hd : t.definitionOf e = some d) (hdescribes : d.describes e = true)
    (haccepts : d.accepts type = true) : t.narrowable? e type ≠ none := by
  obtain ⟨i, hi, hget⟩ := Option.bind_eq_some_iff.1 hd
  rw [narrowable?_eq_some.2 ⟨hi, hget, hdescribes, haccepts⟩]
  exact Option.some_ne_none _

/-- A definition that does not describe an expression is not narrowed for it. -/
theorem narrowable?_eq_none_of_describes {e : Expr} {d : Definition} (hd : t.definitionOf e = some d)
    (hdescribes : d.describes e = false) (type : TypeName) : t.narrowable? e type = none := by
  obtain ⟨i, hi, hget⟩ := Option.bind_eq_some_iff.1 hd
  rw [narrowable?, hi, Option.bind_some, hget, Option.bind_some, hdescribes]
  rfl

end DefinitionTable

namespace Expr

/-- What an expression was built with, in a table and in one that it grows to. -/
theorem Rests.definitionOf (ht : t.IsSound) (h : t.Grown t') {e : Expr} (he : e.Rests t) :
    t'.definitionOf e = t.definitionOf e ∨
      ∃ d type, t.definitionOf e = some d ∧ d.accepts type = true ∧
        t'.definitionOf e = some (d.narrow type) := by
  unfold DefinitionTable.definitionOf
  rcases he.definition ht with hnone | ⟨i, d, hi, hd⟩
  · rw [hnone]
    exact .inl rfl
  · obtain ⟨d', hd', rfl | ⟨type, haccepts, rfl⟩⟩ := h.get? hd
    · rw [hi, Option.bind_some, Option.bind_some, hd, hd']
      exact .inl rfl
    · rw [hi, Option.bind_some, Option.bind_some, hd, hd']
      exact .inr ⟨d, type, rfl, haccepts, rfl⟩

/-- An application was built with the definition of a function, or with none. -/
theorem Rests.function {f : String} {ops : List Expr} {d : Option Nat} {c : Bool}
    (he : (application f ops d c).Rests t) : t.definitionOf (application f ops d c) = none ∨
      ∃ g, t.find? f = some (.function g) ∧
        t.definitionOf (application f ops d c) = some (.function g) := by
  unfold DefinitionTable.definitionOf
  rw [Expr.definition?]
  rcases (he.settled.2 he.canonical).1 with ⟨-, rfl⟩ | ⟨-, rfl⟩
  · exact .inl rfl
  · cases hi : t.functionNumber? f with
    | none => exact .inl rfl
    | some i =>
        obtain ⟨g, hget, hfind⟩ := DefinitionTable.find?_of_functionNumber? hi
        exact .inr ⟨g, hfind, hget⟩

/-- A result that follows from the operands is final if these are. -/
theorem Rests.result_eq (ht : t.IsRegular) (h : t.Grown t') {f : String} {ops : List Expr}
    {d : Option Nat} {c : Bool} (he : (application f ops d c).Rests t) (hv : allValid ops = true)
    {g : FunctionDefinition} (hg : t.find? f = some (.function g)) :
    g.signature.result.apply (t'.typesOf ops) = g.signature.result.apply (t.typesOf ops) := by
  have hregular := ht.function hg
  cases hn : g.numeric.truthy with
  | false =>
      obtain ⟨type, htype⟩ := hregular.fixed hn
      rw [htype]
      rfl
  | true =>
      have hhold : f ≠ "Hold" := hregular.ne_hold (hregular.numeric hn)
      have hfits := (he.settled.2 he.canonical).2
      rw [Fits, if_neg hhold] at hfits
      have hfinal := (hfits.2 g hg hv).final hn
      have htypes : ∀ es : List Expr, (∀ e ∈ es, e.IsFinal t) → t'.typesOf es = t.typesOf es := by
        intro es hes
        induction es with
        | nil => rfl
        | cons e rest ih =>
            rw [List.forall_mem_cons] at hes
            rw [DefinitionTable.typesOf, DefinitionTable.typesOf, (hes.1 t' h).1, ih hes.2]
      rw [htypes ops hfinal]

/-- **A type that cannot be narrowed is final.** -/
theorem Rests.isFinal (ht : t.IsRegular) {e : Expr} (he : e.Rests t) (hv : e.isValid = true)
    (hfirm : ∀ type, t.narrowable? e type = none) : e.IsFinal t := by
  intro t' h
  cases e with
  | number _ => exact ⟨rfl, fun _ => rfl⟩
  | error _ _ _ => exact ⟨rfl, fun _ => rfl⟩
  | symbol n d c =>
      rcases he.definitionOf ht.sound h with hsame | ⟨x, type, hx, haccepts, hx'⟩
      · refine ⟨?_, fun type => DefinitionTable.narrowable?_eq_none_of hsame (hfirm type)⟩
        rw [DefinitionTable.typeOf, DefinitionTable.typeOf,
          show d.bind t'.get? = d.bind t.get? from hsame]
      · cases x with
        | symbol s => exact absurd (hfirm type) (DefinitionTable.narrowable?_ne_none hx rfl haccepts)
        | function g =>
            -- the name of a function stands for the function, whatever its results are
            refine ⟨?_, DefinitionTable.narrowable?_eq_none_of_describes hx' rfl⟩
            rw [DefinitionTable.typeOf, DefinitionTable.typeOf,
              show d.bind t'.get? = _ from hx', show d.bind t.get? = _ from hx]
            rfl
  | application f ops d c =>
      have hdefinition : t'.definitionOf (application f ops d c) = t.definitionOf (application f ops d c) := by
        refine (he.definitionOf ht.sound h).resolve_right fun ⟨x, type, hx, haccepts, _⟩ => ?_
        rcases he.function with hnone | ⟨g, -, hg⟩
        · rw [hnone] at hx
          cases hx
        · rw [hg] at hx
          cases hx
          exact DefinitionTable.narrowable?_ne_none hg rfl haccepts (hfirm type)
      refine ⟨?_, fun type => DefinitionTable.narrowable?_eq_none_of hdefinition (hfirm type)⟩
      rw [DefinitionTable.typeOf, DefinitionTable.typeOf,
        show d.bind t'.get? = d.bind t.get? from hdefinition]
      rcases he.function with hnone | ⟨g, hfind, hg⟩
      · rw [show d.bind t.get? = _ from hnone]
      · rw [show d.bind t.get? = _ from hg]
        exact he.result_eq ht h hv hfind

end Expr

/-! ## Accepted for good

An operand whose type was inferred has a type that the check accepts; every other one keeps the type
with which it was accepted. -/

section Acceptance

variable {pairs : List (Expr × TypeName)} {e : Expr} {type : TypeName}

/-- Once a type was inferred for an operand, its type is final. -/
theorem Expr.Rests.isFinal_of_infers (ht : t.IsRegular) (he : e.Rests t) (hv : e.isValid = true)
    (h : t₁.Infers pairs t) (hmem : (e, type) ∈ pairs) (htype : type.isOpen = false) : e.IsFinal t :=
  he.isFinal ht hv (h.narrowable?_eq_none hmem htype)

/-- Where one type is inferred, an operand takes it or keeps its own. -/
theorem Expr.Rests.typeOf_of_infers (ht₁ : t₁.IsRegular) (hgrown : t₁.Grown t) (he : e.Rests t₁)
    (hv : e.isValid = true) (h : t₁.Infers pairs t) (hmem : (e, type) ∈ pairs)
    (hpairs : ∀ p ∈ pairs, p.2 = type) (htype : type.isOpen = false) :
    t.typeOf e = t₁.typeOf e ∨ t.typeOf e = type := by
  by_cases hfirm : ∀ type', t₁.narrowable? e type' = none
  · exact .inl (he.isFinal ht₁ hv hfirm t hgrown).1
  · obtain ⟨type', hne⟩ := not_forall.1 hfirm
    obtain ⟨⟨i, d⟩, hd⟩ := Option.ne_none_iff_exists'.1 hne
    have hget := h.get?_of_narrowable? hmem hpairs htype hd
    obtain ⟨hi, -, hdescribes, -⟩ := DefinitionTable.narrowable?_eq_some.1 hd
    refine .inr ?_
    cases e with
    | number _ => cases hi
    | error _ _ _ => cases hi
    | symbol n j c =>
        cases d with
        | function g => cases hdescribes
        | symbol s =>
            obtain rfl : j = some i := hi
            rw [DefinitionTable.typeOf, Option.bind_some, hget]
            rfl
    | application f ops j c =>
        cases d with
        | symbol s => cases hdescribes
        | function g =>
            obtain rfl : j = some i := hi
            rw [DefinitionTable.typeOf, Option.bind_some, hget]
            rfl

variable (hsound : t.IsSound) (h : t.Grown t') (he : e.Rests t)

include hsound h he

theorem Expr.Rests.isInferred_eq : isInferred t' e = isInferred t e := by
  unfold isInferred
  rcases he.definitionOf hsound h with hsame | ⟨d, type, hd, -, hd'⟩
  · rw [hsame]
  · rw [hd, hd']
    cases d <;> rfl

theorem Expr.Rests.isHeld_eq : isHeld t' e = isHeld t e := by
  unfold isHeld
  rcases he.definitionOf hsound h with hsame | ⟨d, type, hd, -, hd'⟩
  · rw [hsame]
  · rw [hd, hd']
    rcases d with ⟨_, value, _, _, _, _, _⟩ | _
    · cases value <;> rfl
    · rfl

theorem Expr.Rests.isNone_eq : (t'.definitionOf e).isNone = (t.definitionOf e).isNone := by
  rcases he.definitionOf hsound h with hsame | ⟨d, type, hd, -, hd'⟩
  · rw [hsame]
  · rw [hd, hd']
    rfl

/-- **An operand that was taken for a number still is**, if its type, or those of its elements, are the
same or types of numbers. -/
theorem Expr.Rests.acceptsNumber
    (hreached : ∀ x ∈ reached [e], t'.typeOf x = t.typeOf x ∨ t'.isNumeric x = true)
    (hcollection : isCollection e = true → t'.typeOf e = t.typeOf e)
    (haccepts : acceptsNumber t e = true) : acceptsNumber t' e = true := by
  have hinferred := he.isInferred_eq hsound h
  have hheld := he.isHeld_eq hsound h
  have hnone := he.isNone_eq hsound h
  have hsame : t'.typeOf e = t.typeOf e → (isCollection e = true →
      e.operands.all t.isNumeric = true → e.operands.all t'.isNumeric = true) →
      Kernel.acceptsNumber t' e = true := fun htype helements => by
    unfold Kernel.acceptsNumber DefinitionTable.isNumeric at haccepts ⊢
    unfold DefinitionTable.isNumeric at helements
    rw [htype, hnone, hinferred, hheld]
    cases hc : isCollection e with
    | false =>
        rw [hc] at haccepts
        exact haccepts
    | true =>
        rw [hc, if_pos rfl, Bool.or_eq_true] at haccepts
        rw [if_pos rfl, Bool.or_eq_true]
        exact haccepts.imp_right (helements hc)
  cases hc : isCollection e with
  | true =>
      refine hsame (hcollection hc) fun _ helements => List.all_eq_true.2 fun x hx => ?_
      refine (hreached x (by simpa [reached, hc] using hx)).elim (fun htype => ?_) id
      rw [DefinitionTable.isNumeric, htype]
      exact List.all_eq_true.1 helements x hx
  | false =>
      refine (hreached e (by simp [reached, hc])).elim (fun htype => hsame htype (by simp [hc])) ?_
      intro hn
      simp [Kernel.acceptsNumber, hn]

/-- **An operand that was accepted for a parameter still is**, if its type is the same or below that of
the parameter. -/
theorem Expr.Rests.acceptsParameter
    (htype : t'.typeOf e = t.typeOf e ∨ (t'.typeOf e).isSubtype type = true)
    (haccepts : acceptsParameter t false e type = true) : acceptsParameter t' false e type = true := by
  unfold Kernel.acceptsParameter at haccepts ⊢
  rw [he.isInferred_eq hsound h]
  rcases htype with htype | htype
  · rw [htype]
    exact haccepts
  · rw [Bool.and_eq_true] at haccepts
    rw [haccepts.1, htype]
    simp

end Acceptance

section Remaining

variable {f : String} {d : FunctionDefinition} {ops : List Expr}

/-- No list among operands is inferred anything about: its elements are. -/
theorem Expr.Rests.isFinal_of_isCollection (ht : t.IsRegular) {e : Expr} (he : e.Rests t)
    (hv : e.isValid = true) (hlist : isCollection e = true) : e.IsFinal t := by
  cases e with
  | application f es i c =>
      obtain rfl : f = "List" := by simpa [isCollection, isApplicationOf] using hlist
      refine he.isFinal ht hv fun type => ?_
      rw [Option.eq_none_iff_forall_ne_some]
      rintro ⟨j, x⟩ hx
      obtain ⟨hj, hget, -, haccepts⟩ := DefinitionTable.narrowable?_eq_some.1 hx
      have hdefinition : t.definitionOf (.application "List" es i c) = some x := by
        rw [DefinitionTable.definitionOf, hj, Option.bind_some, hget]
      rcases he.function with hnone | ⟨g, hfind, hg⟩
      · rw [hnone] at hdefinition
        cases hdefinition
      · rw [hg] at hdefinition
        cases hdefinition
        have hinferred := ((Definition.accepts_iff _ type).1 haccepts).1
        rw [Definition.isInferred, (ht.function hfind).list rfl] at hinferred
        cases hinferred
  | _ => cases hlist

theorem isOpen_groupType (t : DefinitionTable) (ops : List Expr) :
    (groupType t ops).isOpen = false := by
  rw [groupType]
  split <;> rfl

/-- **Numbers that were accepted are accepted for good.** -/
theorem accepts_numbers (ht₁ : t₁.IsRegular) (ht : t.IsRegular) (hgrown : t₁.Grown t)
    (hn : d.numeric.truthy = true) (hops : ∀ e ∈ ops, e.Rests t₁) (hv : Expr.allValid ops = true)
    (htakes : takes t₁ d ops = true) (h : t₁.Infers (t₁.inferences d ops) t) :
    (∀ t', t.Grown t' → t'.Accepts d ops) ∧ ∀ e ∈ ops, e.IsFinal t := by
  rw [Expr.allValid_iff] at hv
  have hopen := isOpen_groupType t₁ ops
  rw [DefinitionTable.inferences, if_pos hn] at h
  have hmem : ∀ x ∈ reached ops, (x, groupType t₁ ops) ∈ (reached ops).map fun e => (e, groupType t₁ ops) :=
    fun x hx => List.mem_map_of_mem hx
  have hreached : ∀ x ∈ reached ops, x.IsFinal t ∧
      ∀ t', t.Grown t' → t'.typeOf x = t₁.typeOf x ∨ t'.isNumeric x = true := by
    intro x hx
    have hrests := Expr.rests_reached hops x hx
    have hvalid := Expr.valid_reached hv x hx
    have hfinal := (hrests.grown ht₁.sound ht hgrown).isFinal_of_infers ht hvalid h (hmem x hx) hopen
    refine ⟨hfinal, fun t' ht' => ?_⟩
    rw [DefinitionTable.isNumeric, (hfinal t' ht').1]
    refine (hrests.typeOf_of_infers ht₁ hgrown hvalid h (hmem x hx) (by simp) hopen).imp_right ?_
    rintro htype
    rw [htype]
    exact groupType_isSubtype t₁ ops
  have hcollection : ∀ e ∈ ops, isCollection e = true → e.IsFinal t₁ := fun e he =>
    (hops e he).isFinal_of_isCollection ht₁ (hv e he)
  refine ⟨fun t' ht' => ⟨?_, ?_⟩, fun e he => ?_⟩
  · rw [takes, if_pos hn, Bool.and_eq_true, List.all_eq_true] at htakes ⊢
    refine ⟨fun e he => ?_, htakes.2⟩
    have haccepted := htakes.1 e he
    rw [Bool.and_eq_true] at haccepted ⊢
    refine ⟨haccepted.1, (hops e he).acceptsNumber ht₁.sound (hgrown.trans ht') (fun x hx => ?_) ?_
      haccepted.2⟩
    · refine (hreached x ?_).2 t' ht'
      rw [reached, List.flatMap_singleton] at hx
      exact List.mem_flatMap.2 ⟨e, he, hx⟩
    · exact fun hlist => (hcollection e he hlist t' (hgrown.trans ht')).1
  · rw [DefinitionTable.inferences, if_pos hn]
    intro p hp
    obtain ⟨x, hx, rfl⟩ := List.mem_map.1 hp
    exact ((hreached x hx).1 t' ht').2 _
  · cases hlist : isCollection e with
    | true => exact (hcollection e he hlist).grown hgrown
    | false => exact (hreached e (List.mem_flatMap.2 ⟨e, he, by simp [hlist]⟩)).1

/-- **Operands that were accepted for parameters of one type are accepted for good.** -/
theorem accepts_parameters (ht₁ : t₁.IsRegular) (ht : t.IsRegular) (hgrown : t₁.Grown t)
    (hd : d.Regular f) (hn : d.numeric.truthy = false) (hops : ∀ e ∈ ops, e.Rests t₁)
    (hv : Expr.allValid ops = true) (htakes : takes t₁ d ops = true)
    (h : t₁.Infers (t₁.inferences d ops) t) {t' : DefinitionTable} (ht' : t.Grown t') :
    t'.Accepts d ops := by
  rw [Expr.allValid_iff] at hv
  have hn' : ¬d.numeric.truthy = true := by simp [hn]
  have hthreadable := hd.threadable hn
  obtain ⟨type, htype, hparameters⟩ :=
    Signature.exists_uniform (hd.uniform hn) ops.length
  have hzip : ∀ q ∈ ops.zip (parametersFor d.signature ops.length), q.1 ∈ ops ∧ q.2 = type :=
    fun q hq => ⟨(List.of_mem_zip hq).1, hparameters _ (List.of_mem_zip hq).2⟩
  have hinferences : ∀ t : DefinitionTable,
      t.inferences d ops = ops.zip (parametersFor d.signature ops.length) := fun t => by
    rw [DefinitionTable.inferences, if_neg hn', hthreadable]
    exact List.filter_eq_self.2 fun _ _ => rfl
  rw [hinferences] at h
  rw [takes, if_neg hn', hthreadable, Bool.and_eq_true, Bool.and_eq_true, List.all_eq_true] at htakes
  -- parameters of any type accept everything and infer nothing
  rcases htype with rfl | hopen
  · refine ⟨?_, ?_⟩
    · rw [takes, if_neg hn', hthreadable, Bool.and_eq_true, Bool.and_eq_true, List.all_eq_true]
      refine ⟨⟨fun q hq => ?_, htakes.1.2⟩, htakes.2⟩
      obtain ⟨hq, htype⟩ := hzip q hq
      rw [acceptsParameter, hv _ hq, htype]
      simp [TypeName.isSubtype]
    · rw [hinferences]
      intro q hq
      rw [(hzip q hq).2, Option.eq_none_iff_forall_ne_some]
      rintro ⟨i, x⟩ hx
      have haccepts := (DefinitionTable.narrowable?_eq_some.1 hx).2.2.2
      cases ((Definition.accepts_iff x .any).1 haccepts).2.2
  · have hfinal : ∀ q ∈ ops.zip (parametersFor d.signature ops.length), q.1.IsFinal t := fun q hq =>
      ((hops _ (hzip q hq).1).grown ht₁.sound ht hgrown).isFinal_of_infers ht (hv _ (hzip q hq).1) h
        hq ((hzip q hq).2 ▸ hopen)
    refine ⟨?_, ?_⟩
    · rw [takes, if_neg hn', hthreadable, Bool.and_eq_true, Bool.and_eq_true, List.all_eq_true]
      refine ⟨⟨fun q hq => ?_, htakes.1.2⟩, htakes.2⟩
      obtain ⟨hmem, htype⟩ := hzip q hq
      refine (hops _ hmem).acceptsParameter ht₁.sound (hgrown.trans ht') ?_ (htakes.1.1 q hq)
      rw [(hfinal q hq t' ht').1, htype]
      refine ((hops _ hmem).typeOf_of_infers ht₁ hgrown (hv _ hmem) h hq ?_ ?_).imp_right ?_
      · exact fun p hp => (hzip p hp).2.trans htype.symm
      · exact htype ▸ hopen
      · intro heq
        rw [heq, htype]
        exact TypeName.isSubtype_refl type
    · rw [hinferences]
      exact fun q hq => (hfinal q hq t' ht').2 _

/-- **Operands that passed a check remain as they are.** -/
theorem Remains.of_infers (ht₁ : t₁.IsRegular) (ht : t.IsRegular) (hgrown : t₁.Grown t)
    (hd : d.Regular f) (hleaves : Expr.flatten (splices f d) ops = ops)
    (hops : ∀ e ∈ ops, e.Rests t₁) (hv : Expr.allValid ops = true) (htakes : takes t₁ d ops = true)
    (h : t₁.Infers (t₁.inferences d ops) t) (hirreducible : Irreducible f ops) :
    Remains t f d ops := by
  cases hn : d.numeric.truthy with
  | true =>
      obtain ⟨haccepts, hfinal⟩ := accepts_numbers ht₁ ht hgrown hn hops hv htakes h
      exact ⟨hleaves, haccepts, fun _ => hfinal, hirreducible⟩
  | false =>
      refine ⟨hleaves, fun t' ht' => ?_, fun h => ?_, hirreducible⟩
      · exact accepts_parameters ht₁ ht hgrown hd hn hops hv htakes h ht'
      · rw [hn] at h
        cases h

end Remaining

namespace Kernel

/-! ## Kernels -/

/-- A strict kernel that builds settled expressions: its table is regular, and what it built before is
settled. -/
structure IsSettled (k : Kernel) : Prop where
  strict : k.settings.strict = true
  regular : k.table.IsRegular
  pool : ∀ x ∈ k.pool, x.Rests k.table

namespace IsSettled

variable {k k₁ : Kernel} {f : String} {d : FunctionDefinition} {ops es rs : List Expr}

theorem pooling (hk : k.IsSettled) {e : Expr} (he : e.Rests k.table) : (k.pooling e).IsSettled :=
  ⟨hk.strict, hk.regular, List.forall_mem_cons.2 ⟨he, hk.pool⟩⟩

theorem grown (hk : k.IsSettled) {t : DefinitionTable} (ht : t.IsRegular) (h : k.table.Grown t) :
    IsSettled { k with table := t } :=
  ⟨hk.strict, ht, fun x hx => (hk.pool x hx).grown hk.regular.sound ht h⟩

/-- **A function that was applied to what a check left is settled.** -/
theorem applied (hk₁ : k₁.IsSettled) (hk : k.IsSettled) (hgrown : k₁.table.Grown k.table)
    (hd : k₁.table.find? f = some (.function d)) (hlazy : d.isLazy.truthy = false)
    (hes : ∀ e ∈ es, e.Rests k₁.table) (hleaves : Expr.flatten (splices f d) es = es)
    (hrun : (checkOperands d es).run.run k₁ = (.ok rs, k)) (hrs : ∀ e ∈ rs, e.Rests k.table)
    (hirreducible : Irreducible f rs) :
    (Expr.application f rs (k.table.functionNumber? f) true).Rests k.table := by
  have hregular := hk₁.regular.function hd
  have hcontains := DefinitionTable.contains_of_find? hd
  have hhold : f ≠ "Hold" := hregular.ne_hold hlazy
  have hflat : Expr.flatten none es = es := by
    rw [← hleaves, Expr.flatten_none_flatten]
  have hfits : Fits k.table f rs := by
    rw [Fits, if_neg hhold]
    refine ⟨fun e he => (hrs e he).canonical, fun d' hd' hv => ?_⟩
    obtain ⟨result, hfind⟩ := hgrown.function_of_contains hk₁.regular.sound hcontains hd'
    rw [hd] at hfind
    cases hfind
    obtain ⟨hvalid, hpassed⟩ := (yields_checkOperands hk₁.strict hlazy hflat).of_run hrun
    obtain ⟨rfl, hinfers⟩ := hpassed hv
    exact (Remains.of_infers hk₁.regular hk.regular hgrown hregular hleaves hes hv (hvalid.symm.trans hv)
      hinfers hirreducible).grown .refl
  exact ⟨⟨Expr.allSettled_iff.2 fun e he => (hrs e he).settled, fun _ =>
    ⟨.inr ⟨hgrown.contains hcontains, rfl⟩, hfits⟩⟩, rfl⟩

/-- **An operator that is built in a form of its own**, applied to what its check left. -/
theorem formed (hk₁ : k₁.IsSettled) (hk : k.IsSettled) (hgrown : k₁.table.Grown k.table)
    {form : CanonicalForm} {count : Nat} (hform : ownForm? f = some (form, count))
    (hf : f ∈ regularOperators) (hops : ∀ e ∈ ops, e.Rests k₁.table)
    (hrun : (checkNumeric ops (some count) none).run.run k₁ = (.ok rs, k))
    (hrs : ∀ e ∈ rs, e.Rests k.table) (hirreducible : Irreducible f rs) :
    (Expr.application f rs (k.table.functionNumber? f) true).Rests k.table := by
  obtain ⟨d, hd⟩ := hk₁.regular.exists_function hf
  have hregular := hk₁.regular.function hd
  rcases FunctionDefinition.hasForm_cases hregular.form with ⟨hnone, -⟩ | ⟨form', count', hform', -, hnumbers⟩
  · rw [hform] at hnone
    cases hnone
  · rw [hform] at hform'
    cases hform'
    have hparts := hnumbers
    simp only [FunctionDefinition.takesNumbers, Bool.and_eq_true, Bool.not_eq_true'] at hparts
    have hsplices : splices f d = none := by rw [splices, hparts.1.1.2]; rfl
    refine hk₁.applied hk hgrown hd (hregular.numeric hparts.1.1.1) ?_ ?_
      ((checkOperands_of_takesNumbers hnumbers ops).symm ▸ hrun) hrs hirreducible
    · exact Expr.forall_flatten (fun g xs i c hg he => he.operand (by rintro rfl; cases hg)) hops
    · rw [hsplices, Expr.flatten_none_flatten]

/-- A negation that is settled has one operand. -/
theorem exists_negated (hk : k.IsSettled) {i : Option Nat} {c : Bool}
    (he : (Expr.application "Negate" ops i c).Rests k.table) (hv : Expr.allValid ops = true) :
    ∃ x, ops = [x] := by
  obtain ⟨d, hd⟩ := hk.regular.exists_function (f := "Negate") (by decide)
  have hfits := (he.settled.2 he.canonical).2
  rw [Fits, if_neg (by decide)] at hfits
  have htakes := ((hfits.2 d hd hv).accepts _ .refl).takes
  rcases FunctionDefinition.hasForm_cases (hk.regular.function hd).form with
    ⟨hnone, -⟩ | ⟨form, count, hform, -, hnumbers⟩
  · cases hnone
  · obtain rfl : 1 = count := congrArg Prod.snd (Option.some.inj hform)
    simp only [FunctionDefinition.takesNumbers, Bool.and_eq_true, beq_iff_eq] at hnumbers
    rw [takes, if_pos hnumbers.1.1.1, hnumbers.1.2, hnumbers.2] at htakes
    exact List.length_eq_one_iff.1 (by simpa using (Bool.and_eq_true_iff.1 htakes).2)

/-- **A form of its own never leaves an application to the signature** of its operator. -/
theorem yields_buildForm_some (hk : k.IsSettled) {form : CanonicalForm} {count : Nat}
    (hform : ownForm? f = some (form, count)) (hops : ∀ e ∈ ops, e.Rests k.table) :
    Yields Anyhow (buildForm (.canonicalForm form) ops) k fun o _ => o ≠ none := by
  have hsome : ∀ {x : Action Expr} {k : Kernel},
      Yields Anyhow (do return some (← x)) k fun o _ => o ≠ none := fun {x k} =>
    (anyhow x).bind fun e _ _ => Yields.pure (Option.some_ne_none e)
  obtain ⟨step, heq, hstep⟩ := exists_forms (arity?_of_ownForm? hform) ops
  rw [heq]
  refine (yields_checkNumeric_refused ops _).bind fun rs k₁ hrs => ?_
  have h := hstep rs
  generalize step rs = x at h ⊢
  cases h with
  | nothing | miscounted => exact trivial
  | opposite | quotient => exact (anyhow _).bind fun _ _ _ => hsome
  | negation | rational | parts | complex => exact hsome
  | negated xs i c rest hv =>
      refine Yields.pure ?_
      have hflat := Expr.forall_flatten (a := none) (P := (Expr.Rests k.table ·))
        (fun g xs i c hg he => he.operand (by rintro rfl; cases hg)) hops
      rcases hrs.mem _ List.mem_cons_self with he | he
      · obtain ⟨x, rfl⟩ := hk.exists_negated (hflat _ he) hv
        exact Option.some_ne_none x
      · cases he

/-- An operator that is no function is applied to any operands in canonical form. -/
theorem plain (hk : k.IsSettled) (hf : Expr.isWildcardName f = true ∨
      k.table.contains f = true ∧ k.table.functionNumber? f = none)
    (hops : ∀ e ∈ ops, e.Rests k.table) :
    (Expr.application f ops (k.table.functionNumber? f) true).Rests k.table := by
  have hnone : k.table.functionNumber? f = none := by
    rcases hf with hf | hf
    · rw [DefinitionTable.functionNumber?, DefinitionTable.find?_of_contains (hk.regular.wildcards hf)]
    · exact hf.2
  have hhold : f ≠ "Hold" := by
    rintro rfl
    obtain ⟨d, hd⟩ := hk.regular.exists_function (f := "Hold") (by decide)
    exact DefinitionTable.find?_ne_of_functionNumber? hnone d hd
  refine ⟨⟨Expr.allSettled_iff.2 fun e he => (hops e he).settled, fun _ => ⟨?_, ?_⟩⟩, rfl⟩
  · exact hf.imp (fun hf => ⟨hf, hnone⟩) fun hf => ⟨hf.1, rfl⟩
  · rw [Fits, if_neg hhold]
    exact ⟨fun e he => (hops e he).canonical, fun d hd =>
      absurd hd (DefinitionTable.find?_ne_of_functionNumber? hnone d)⟩

end IsSettled

/-! ## Building -/

/-- **Building settled expressions gives settled expressions.** -/
def settlement : Development where
  Holds := IsSettled
  Built t e := e.Rests t
  Stands t e := e.IsSettled t
  Keeps e := e.isHeldBack = true
  Reads r := r.isWritten = true
  Names _ := True
  Heads _ := True
  Admits _ := True
  Mode f held := held = decide (f = "Hold")
  stands h := h.settled
  built h hc := ⟨h, hc⟩
  keeps hr hrun := (hold_isHeldBack hr _).of_run hrun
  name _ := trivial
  truth _ := trivial
  head _ _ := trivial
  item h := by
    rw [Raw.isWritten, Raw.allWritten, Bool.and_eq_true] at h
    exact Raw.allWritten_iff.1 h.2
  literal _ _ := trivial
  zero := trivial
  neg _ _ := trivial
  div _ _ _ _ _ := trivial
  parts _ _ := trivial
  number _ := ⟨trivial, rfl⟩
  admits _ := trivial
  error {_ e} h := by
    cases e with
    | error _ _ _ => exact ⟨trivial, rfl⟩
    | _ => cases h
  wildcard _ h := ⟨fun _ => .inl ⟨h, rfl⟩, rfl⟩
  symbol _ _ _ h := ⟨fun _ => .inr ⟨h, rfl⟩, rfl⟩
  heldSymbol _ _ _ := fun h => by cases h
  heldApplication _ _ hops := ⟨Expr.allSettled_iff.2 hops, fun h => by cases h⟩
  plain {k₁ k f ops} hk₁ hk hgrown _ hf hops := by
    refine hk.plain (hf.imp_right fun hf => ⟨hgrown.contains hf.1, ?_⟩) hops
    rw [(hgrown.keeps hk₁.regular.sound).function hf.1, hf.2]
  lazy {k f d ops} hk _ hwildcard hmode hd _ hops hkeeps := by
    have hhold : f = "Hold" := by simpa using hmode
    refine ⟨⟨Expr.allSettled_iff.2 hops, fun _ =>
      ⟨.inr ⟨DefinitionTable.contains_of_find? hd, rfl⟩, ?_⟩⟩, rfl⟩
    rw [Fits, if_pos hhold]
    exact hkeeps
  checked {k₀ k₁ k f d ops rs} hk₀ hk₁ hk hgrown₀ hgrown _ _ hd hlazy hform hops hrun hrs := by
    obtain ⟨result, hd₁⟩ := hgrown₀.function? hd
    have hregular := hk₀.regular.function hd
    have hhold : f ≠ "Hold" := hregular.ne_hold hlazy
    -- an operator with a form of its own never gets here
    have hown : ownForm? f = none := by
      rcases FunctionDefinition.hasForm_cases hregular.form with ⟨hnone, -⟩ | ⟨form, count, hown, hd, -⟩
      · exact hnone
      · obtain ⟨k', hk', hops', hrun'⟩ := hform _ hd
        exact absurd rfl ((hk'.yields_buildForm_some hown hops').of_run hrun')
    have hrests : ∀ e ∈ Expr.flatten (splices f d) ops, e.Rests k₁.table := by
      refine Expr.forall_flatten (fun g xs i c hg he => he.operand ?_) hops
      rintro rfl
      unfold splices at hg
      split at hg
      · exact hhold (by simpa [Expr.isSpliced] using hg)
      · cases hg
    refine hk₁.applied (d := { d with signature := { d.signature with result } }) hk hgrown hd₁ hlazy
      hrests ?_ hrun hrs ⟨?_, ?_, ?_⟩
    · exact Expr.flatten_of_isLeaf fun _ he => Expr.isLeaf_of_mem_flatten he
    all_goals
      rintro rfl
      cases hown
  negated hk₁ hk hgrown hops hrun hrs hnumber hnegate :=
    hk₁.formed hk hgrown (f := "Negate") rfl (by decide) hops hrun hrs
      ⟨fun _ y hy => by
        cases hy
        exact ⟨hnumber, hnegate⟩, fun h => absurd h (by decide), fun h => absurd h (by decide)⟩
  paired {k₁ k f ops a b} hk₁ hk hgrown hops hrun hrs hf := by
    rcases hf with ⟨rfl, hf⟩ | ⟨rfl, hf⟩
    · refine hk₁.formed hk hgrown rfl (by decide) hops hrun hrs
        ⟨fun h => absurd h (by decide), fun _ n m h => ?_, fun h => absurd h (by decide)⟩
      cases h
      exact hf n m rfl rfl
    · refine hk₁.formed hk hgrown rfl (by decide) hops hrun hrs
        ⟨fun h => absurd h (by decide), fun h => absurd h (by decide), fun _ x y h => ?_⟩
      cases h
      exact hf x y rfl rfl
  operand hmode he := he.operand (by simpa using hmode.symm)
  heldOperand he := Expr.allSettled_iff.1 he.1
  mode {k} hk f := by
    by_cases hf : f = "Hold"
    · obtain ⟨d, hd⟩ := hk.regular.exists_function (f := "Hold") (by decide)
      rw [decide_eq_true hf, hf, DefinitionTable.holdsOperands_of_find? hd, holdsBack]
      exact ((hk.regular.function hd).isLazy_iff.2 rfl)
    · rw [decide_eq_false hf]
      cases hd : k.table.find? f with
      | none => rw [DefinitionTable.holdsOperands, ← DefinitionTable.find?, hd]; rfl
      | some x =>
          rw [DefinitionTable.holdsOperands_of_find? hd]
          cases x with
          | symbol s => rfl
          | function d =>
              rw [holdsBack, Bool.eq_false_iff]
              exact fun h => hf ((hk.regular.function hd).isLazy_iff.1 h)
  sequence := rfl
  negate := rfl
  pooling hk he := hk.pooling he
  pooled hk _ hx _ := hk.pool _ hx
  noted _ hk := ⟨hk.strict, hk.regular, hk.pool⟩
  narrowed hk _ hd :=
    have hentry := DefinitionTable.narrowable?_eq_some.1 hd
    have hregular := hk.regular.narrow hentry.2.1 _
    have hgrown := DefinitionTable.Grown.narrowed .refl hentry.2.1 hentry.2.2.2
    ⟨hk.grown hregular hgrown, fun _ => Expr.Rests.grown hk.regular.sound hregular hgrown,
      fun _ => Expr.IsSettled.grown hk.regular.sound hregular hgrown⟩
  met {k name d} hk hnew hname hwildcard := by
    have hd : Definition.IsMet name d := by
      rcases hname with ⟨-, rfl⟩ | ⟨-, rfl⟩
      · exact .symbol
      · exact .function
    have hregular := hk.regular.register hnew hwildcard hd
    have hgrown := DefinitionTable.Grown.met .refl hnew hd
    exact ⟨hk.grown hregular hgrown, fun _ => Expr.Rests.grown hk.regular.sound hregular hgrown,
      fun _ => Expr.IsSettled.grown hk.regular.sound hregular hgrown⟩

end Kernel

end SymbolicAlgebra
