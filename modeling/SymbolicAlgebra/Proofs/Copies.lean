import Mathlib.Data.List.Forall2
import SymbolicAlgebra.Proofs.Legibility
import SymbolicAlgebra.Proofs.Settlement
import SymbolicAlgebra.Proofs.Splicing

/-!
# Proofs/Copies — expressions of one structure that were built in one table

What is built again may be found in the pool, so it is not the expression that was built before but a
*copy* of it: an expression of the same structure that rests in the same table (`Expr.Copies`).  Copies
were built with the same definitions, so they have the same types, and no check tells them apart
(`accepts_copies`).
-/

namespace SymbolicAlgebra

open Kernel

variable {t : DefinitionTable}

/-- A readable expression and one of the same structure, at rest in a table. -/
structure Expr.Copies (t : DefinitionTable) (e x : Expr) : Prop where
  same : e.same x = true
  readable : e.isReadable = true
  original : e.Rests t
  copy : x.Rests t

namespace Expr

variable {e x : Expr} {es xs : List Expr}

/-! ## Parts -/

/-- The definition that a name rests with. -/
theorem Rests.eq_number? (ht : t.IsRegular) {n : String} {d : Option Nat} {c : Bool}
    (h : (symbol n d c).Rests t) : d = if isWildcardName n then none else t.number? n := by
  rcases h.settled h.canonical with ⟨hn, hd⟩ | ⟨hn, hd⟩
  · rw [hd, if_pos hn]
  · rw [hd, ht.isWildcardName_eq_false hn, if_neg (by decide)]

/-- The definition that an operator rests with. -/
theorem Rests.eq_functionNumber? (ht : t.IsRegular) {f : String} {ops : List Expr} {d : Option Nat}
    {c : Bool} (h : (application f ops d c).Rests t) :
    d = if isWildcardName f then none else t.functionNumber? f := by
  rcases (h.settled.2 h.canonical).1 with ⟨hf, hd⟩ | ⟨hf, hd⟩
  · rw [hd, if_pos hf]
  · rw [hd, ht.isWildcardName_eq_false hf, if_neg (by decide)]

/-- Lists of copies. -/
theorem copies_of_sameAll (h : sameAll es xs = true)
    (hes : ∀ e ∈ es, e.isReadable = true ∧ e.Rests t) (hxs : ∀ x ∈ xs, x.Rests t) :
    List.Forall₂ (Copies t) es xs := by
  rw [sameAll_iff_forall₂] at h
  induction h with
  | nil => exact .nil
  | cons hsame _ ih =>
      rw [List.forall_mem_cons] at hes hxs
      exact .cons ⟨hsame, hes.1.1, hes.1.2, hxs.1⟩ (ih hes.2 hxs.2)

namespace Copies

/-- The operands of copies, unless they are held back. -/
theorem operands {f g : String} {c c' : Bool} {d d' : Option Nat} (hf : f ≠ "Hold")
    (h : Copies t (application f es d c) (application g xs d' c')) :
    List.Forall₂ (Copies t) es xs := by
  have hsame := h.same
  rw [Expr.same, Bool.and_eq_true, beq_iff_eq] at hsame
  obtain ⟨rfl, hsame⟩ := hsame
  have hreadable := (isReadable_application.1 h.readable).2
  exact copies_of_sameAll hsame (fun e he => ⟨hreadable e he, h.original.operand hf e he⟩)
    (h.copy.operand hf)

/-- **Copies were built with the same definition.** -/
theorem definition? (ht : t.IsRegular) (h : Copies t e x) : x.definition? = e.definition? := by
  obtain ⟨hsame, -, he, hx⟩ := h
  cases e <;> cases x
  case symbol.symbol n d c m d' c' =>
    obtain rfl : n = m := by simpa [Expr.same] using hsame
    exact (hx.eq_number? ht).trans (he.eq_number? ht).symm
  case application.application f es d c g xs d' c' =>
    obtain rfl : f = g := by
      rw [Expr.same, Bool.and_eq_true, beq_iff_eq] at hsame
      exact hsame.1
    exact (hx.eq_functionNumber? ht).trans (he.eq_functionNumber? ht).symm
  all_goals first
    | rfl
    | simp [Expr.same] at hsame

theorem definitionOf (ht : t.IsRegular) (h : Copies t e x) : t.definitionOf x = t.definitionOf e := by
  rw [DefinitionTable.definitionOf, DefinitionTable.definitionOf, h.definition? ht]

end Copies

mutual

/-- **Copies have the same type.** -/
theorem Copies.typeOf (ht : t.IsRegular) : ∀ {e x : Expr}, Copies t e x → t.typeOf x = t.typeOf e
  | number v, x, h => by
      cases x with
      | number w => rw [Number.eq_of_same_of_isReadable h.readable h.same]
      | _ => cases h.same
  | symbol n d c, x, h => by
      cases x with
      | symbol m d' c' =>
          obtain rfl : d' = d := h.definition? ht
          rfl
      | _ => cases h.same
  | error _ _ _, x, h => by
      have hsame := h.same
      cases x with
      | error _ _ _ => rfl
      | _ => simp [Expr.same] at hsame
  | application f es d c, x, h => by
      cases x with
      | application g xs d' c' =>
          obtain rfl : d' = d := h.definition? ht
          rw [DefinitionTable.typeOf, DefinitionTable.typeOf]
          rcases h.original.function with hnone | ⟨g, hfind, hg⟩
          · rw [show d'.bind t.get? = none from hnone]
          · rw [show d'.bind t.get? = some (.function g) from hg]
            simp only
            cases hn : g.numeric.truthy with
            | false =>
                obtain ⟨type, htype⟩ := (ht.function hfind).fixed hn
                rw [htype]
                rfl
            | true =>
                rw [Copies.typesOf ht (h.operands ((ht.function hfind).ne_hold
                  ((ht.function hfind).numeric hn)))]
      | _ => cases h.same

theorem Copies.typesOf (ht : t.IsRegular) : ∀ {es xs : List Expr}, List.Forall₂ (Copies t) es xs →
    t.typesOf xs = t.typesOf es
  | [], _, h => by
      cases h
      rfl
  | _ :: _, _, h => by
      cases h with
      | cons he hrest =>
          rw [DefinitionTable.typesOf, DefinitionTable.typesOf, Copies.typeOf ht he,
            Copies.typesOf ht hrest]

end

/-! ## Checks -/

namespace Copies

theorem isCollection_eq (h : Copies t e x) : isCollection x = isCollection e := by
  have hsame := h.same
  cases e <;> cases x <;> simp_all [Expr.same, isCollection, isApplicationOf]

theorem isNumber_eq (h : Copies t e x) : x.isNumber = e.isNumber := by
  have hsame := h.same
  cases e <;> cases x <;> simp_all [Expr.same, isNumber]

theorem isSymbol_eq (h : Copies t e x) : x.isSymbol = e.isSymbol := by
  have hsame := h.same
  cases e <;> cases x <;> simp_all [Expr.same, isSymbol]

theorem isApplication_eq (h : Copies t e x) : x.isApplication = e.isApplication := by
  have hsame := h.same
  cases e <;> cases x <;> simp_all [Expr.same, isApplication]

/-- The same number, where there is one. -/
theorem eq_number {v : Number} (h : Copies t e (.number v)) : e = .number v := by
  have hsame := h.same
  cases e with
  | number w => rw [Number.eq_of_same_of_isReadable h.readable hsame]
  | _ => simp [Expr.same] at hsame

theorem number_eq {v : Number} (h : Copies t (.number v) x) : x = .number v := by
  have hsame := h.same
  cases x with
  | number w => rw [Number.eq_of_same_of_isReadable h.readable hsame]
  | _ => simp [Expr.same] at hsame

/-- The elements of lists that are copies. -/
theorem elements (h : Copies t e x) (hlist : isCollection e = true) :
    List.Forall₂ (Copies t) e.operands x.operands := by
  have hx := h.isCollection_eq.trans hlist
  cases e with
  | application f es d c =>
      obtain rfl : f = "List" := by simpa [isCollection, isApplicationOf] using hlist
      cases x with
      | application g xs d' c' => exact h.operands (by decide)
      | _ => cases hx
  | _ => cases hlist

variable (ht : t.IsRegular) (h : Copies t e x)

include ht h

theorem isNumeric_eq : t.isNumeric x = t.isNumeric e := by
  rw [DefinitionTable.isNumeric, DefinitionTable.isNumeric, h.typeOf ht]

theorem isInferred_eq : isInferred t x = isInferred t e := by
  rw [isInferred, isInferred, h.definitionOf ht]

theorem isHeld_eq : isHeld t x = isHeld t e := by
  rw [isHeld, isHeld, h.definitionOf ht, operator_of_same h.same]

theorem acceptsNumber_eq : acceptsNumber t x = acceptsNumber t e := by
  unfold acceptsNumber
  rw [h.isNumeric_eq ht, h.isSymbol_eq, h.definitionOf ht, h.typeOf ht, h.isCollection_eq,
    h.isInferred_eq ht, h.isHeld_eq ht]
  cases hlist : isCollection e with
  | false => rfl
  | true =>
      have helements : ∀ {es xs : List Expr}, List.Forall₂ (Copies t) es xs →
          xs.all t.isNumeric = es.all t.isNumeric := fun h => by
        induction h with
        | nil => rfl
        | cons he _ ih => rw [List.all_cons, List.all_cons, he.isNumeric_eq ht, ih]
      rw [if_pos rfl, if_pos rfl, helements (h.elements hlist)]

theorem acceptsParameter_eq (threadable : Bool) (type : TypeName) :
    acceptsParameter t threadable x type = acceptsParameter t threadable e type := by
  unfold acceptsParameter
  rw [isValid_of_same h.same, h.typeOf ht, h.isCollection_eq, h.isInferred_eq ht]

theorem narrowable?_eq_none {type : TypeName} (hnone : t.narrowable? e type = none) :
    t.narrowable? x type = none := by
  have hdescribes : ∀ d : Definition, d.describes x = d.describes e := fun d => by
    cases d with
    | symbol _ => exact h.isSymbol_eq
    | function _ => exact h.isApplication_eq
  rw [DefinitionTable.narrowable?, h.definition? ht]
  simp only [hdescribes]
  exact hnone

end Copies

end Expr

/-! ## Lists of copies -/

section Lists

variable {es xs : List Expr} (h : List.Forall₂ (Expr.Copies t) es xs)

include h

/-- Each copy is one of an original, at the same place. -/
theorem exists_original {α : Type} {ps : List α} {x : Expr} {p : α} (hx : (x, p) ∈ xs.zip ps) :
    ∃ e, e.Copies t x ∧ (e, p) ∈ es.zip ps := by
  induction h generalizing ps with
  | nil => cases hx
  | @cons e y es ys he _ ih =>
      cases ps with
      | nil => cases hx
      | cons q qs =>
          rcases List.mem_cons.1 hx with heq | hx
          · cases heq
            exact ⟨e, he, List.mem_cons_self⟩
          · obtain ⟨e', he', hmem⟩ := ih hx
            exact ⟨e', he', List.mem_cons_of_mem _ hmem⟩

theorem exists_original_of_mem {x : Expr} (hx : x ∈ xs) : ∃ e ∈ es, e.Copies t x := by
  induction h with
  | nil => cases hx
  | @cons e y es ys he _ ih =>
      rcases List.mem_cons.1 hx with rfl | hx
      · exact ⟨e, List.mem_cons_self, he⟩
      · obtain ⟨e', he', hcopies⟩ := ih hx
        exact ⟨e', List.mem_cons_of_mem _ he', hcopies⟩

theorem flatten_copies {a : Option String} (hleaves : Expr.flatten a es = es) :
    Expr.flatten a xs = xs := by
  refine Expr.flatten_of_isLeaf fun x hx => ?_
  obtain ⟨e, he, hcopies⟩ := exists_original_of_mem h hx
  rw [Expr.isLeaf_of_same hcopies.same]
  exact Expr.isLeaf_of_mem_flatten (hleaves.symm ▸ he)

theorem reached_copies : List.Forall₂ (Expr.Copies t) (reached es) (reached xs) := by
  induction h with
  | nil => exact .nil
  | @cons e x es xs he _ ih =>
      rw [reached_cons, reached_cons, he.isCollection_eq]
      refine List.rel_append ?_ ih
      cases hlist : isCollection e with
      | true => exact he.elements hlist
      | false => exact .cons he .nil

theorem groupType_copies (ht : t.IsRegular) : groupType t xs = groupType t es := by
  have hany : (xs.any fun e => (t.typeOf e).isSubtype .complex) =
      es.any fun e => (t.typeOf e).isSubtype .complex := by
    induction h with
    | nil => rfl
    | cons he _ ih => rw [List.any_cons, List.any_cons, he.typeOf ht, ih]
  rw [groupType, groupType, hany]

/-- **A function takes copies as it takes the originals**, and infers nothing from them either. -/
theorem accepts_copies (ht : t.IsRegular) {d : FunctionDefinition} (haccepts : t.Accepts d es) :
    t.Accepts d xs := by
  obtain ⟨htakes, hstill⟩ := haccepts
  cases hn : d.numeric.truthy with
  | true =>
      rw [takes, if_pos hn, Bool.and_eq_true, List.all_eq_true] at htakes
      rw [DefinitionTable.inferences, if_pos hn] at hstill
      refine ⟨?_, ?_⟩
      · rw [takes, if_pos hn, Bool.and_eq_true, List.all_eq_true, ← h.length_eq]
        refine ⟨fun x hx => ?_, htakes.2⟩
        obtain ⟨e, he, hcopies⟩ := exists_original_of_mem h hx
        rw [Expr.isValid_of_same hcopies.same, hcopies.acceptsNumber_eq ht]
        exact htakes.1 e he
      · rw [DefinitionTable.inferences, if_pos hn]
        intro p hp
        obtain ⟨x, hx, rfl⟩ := List.mem_map.1 hp
        obtain ⟨e, he, hcopies⟩ := exists_original_of_mem (reached_copies h) hx
        rw [groupType_copies h ht]
        exact hcopies.narrowable?_eq_none ht (hstill _ (List.mem_map_of_mem he))
  | false =>
      have hn' : ¬d.numeric.truthy = true := by simp [hn]
      rw [takes, if_neg hn', Bool.and_eq_true, Bool.and_eq_true, List.all_eq_true] at htakes
      rw [DefinitionTable.inferences, if_neg hn'] at hstill
      refine ⟨?_, ?_⟩
      · rw [takes, if_neg hn', Bool.and_eq_true, Bool.and_eq_true, List.all_eq_true, ← h.length_eq]
        refine ⟨⟨fun q hq => ?_, htakes.1.2⟩, htakes.2⟩
        obtain ⟨e, hcopies, he⟩ := exists_original h hq
        rw [hcopies.acceptsParameter_eq ht]
        exact htakes.1.1 _ he
      · rw [DefinitionTable.inferences, if_neg hn', ← h.length_eq]
        intro p hp
        obtain ⟨hp, hthreaded⟩ := List.mem_filter.1 hp
        obtain ⟨e, hcopies, he⟩ := exists_original h hp
        rw [hcopies.isCollection_eq] at hthreaded
        exact hcopies.narrowable?_eq_none ht (hstill _ (List.mem_filter.2 ⟨he, hthreaded⟩))

theorem irreducible_copies {f : String} (hirreducible : Irreducible f es) : Irreducible f xs where
  negate hf x hx := by
    subst hx
    obtain _ | ⟨he, _ | _⟩ := h
    rw [he.isNumber_eq, Expr.operator_of_same he.same, Expr.isValid_of_same he.same]
    exact hirreducible.negate hf _ rfl
  rational hf n m hxs := by
    subst hxs
    obtain _ | ⟨ha, _ | ⟨hb, _ | _⟩⟩ := h
    exact hirreducible.rational hf n m (by rw [ha.eq_number, hb.eq_number])
  complex hf x y hxs := by
    subst hxs
    obtain _ | ⟨ha, _ | ⟨hb, _ | _⟩⟩ := h
    exact hirreducible.complex hf x y (by rw [ha.eq_number, hb.eq_number])

end Lists

end SymbolicAlgebra
