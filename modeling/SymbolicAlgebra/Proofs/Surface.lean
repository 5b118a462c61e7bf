import SymbolicAlgebra.Proofs.Construction
import SymbolicAlgebra.Proofs.Sameness

/-!
# Proofs/Surface — what checks see of an expression

`Expr.outline` drops all definitions and flags, also below errors.  It keeps what `Expr.same` compares and
what is printed.  Checks see more, the types of operands; but they do not see into what a function holds
back, nor below an error: there, the *surface* of an expression is its outline (`Expr.surface`).  Checks of
operands with one surface have results with one surface (`surfaceAll_checkedNumbers`,
`surfaceAll_checkedParameters`), and infer the same types (`inferAll_surfaceAll`,
`inferParameters_surfaceAll`).
-/

namespace SymbolicAlgebra

namespace Expr

/-! ## Outlines -/

mutual

/-- The expression without definitions and flags, also below errors. -/
def outline : Expr → Expr
  | number v => number v
  | symbol n _ _ => symbol n none true
  | application f ops _ _ => node f (outlineAll ops)
  | error code details operand =>
      error code details (match operand with
        | none => none
        | some x => some (outline x))

def outlineAll : List Expr → List Expr
  | [] => []
  | e :: rest => outline e :: outlineAll rest

end

mutual

theorem outline_outline : ∀ e : Expr, e.outline.outline = e.outline
  | number _ => rfl
  | symbol _ _ _ => rfl
  | application f ops _ _ => congrArg (node f) (outlineAll_outlineAll ops)
  | error _ _ none => rfl
  | error code details (some x) =>
      congrArg (fun x => error code details (some x)) (outline_outline x)

theorem outlineAll_outlineAll : ∀ es : List Expr, outlineAll (outlineAll es) = outlineAll es
  | [] => rfl
  | e :: rest => congrArg₂ List.cons (outline_outline e) (outlineAll_outlineAll rest)

end

mutual

/-- Outlines are compared as the expressions are. -/
theorem same_outline : ∀ e x : Expr, e.outline.same x.outline = e.same x
  | number _, x => by
      cases x with
      | error _ _ y => cases y <;> rfl
      | _ => rfl
  | symbol _ _ _, x => by
      cases x with
      | error _ _ y => cases y <;> rfl
      | _ => rfl
  | application f xs _ _, x => by
      cases x with
      | application g ys _ _ => exact congrArg (f == g && ·) (sameAll_outlineAll xs ys)
      | error _ _ y => cases y <;> rfl
      | _ => rfl
  | error _ _ none, x => by
      cases x with
      | error _ _ y => cases y <;> rfl
      | _ => rfl
  | error c ds (some e), x => by
      cases x with
      | error c' ds' y =>
          cases y with
          | none => rfl
          | some y => exact congrArg (c == c' && ds == ds' && ·) (same_outline e y)
      | _ => rfl

theorem sameAll_outlineAll : ∀ xs ys : List Expr,
    sameAll (outlineAll xs) (outlineAll ys) = sameAll xs ys
  | [], ys => by cases ys <;> rfl
  | x :: xs, ys => by
      cases ys with
      | nil => rfl
      | cons y ys => exact congrArg₂ (· && ·) (same_outline x y) (sameAll_outlineAll xs ys)

end

theorem outline_error (code : String) (details : List String) (operand : Option Expr) :
    (error code details operand).outline = error code details (operand.map outline) := by
  cases operand <;> rfl

/-- Expressions of one outline are the same as the same ones. -/
theorem same_congr {e e' : Expr} (h : e.outline = e'.outline) : e.same = e'.same := by
  funext x
  rw [← same_outline, h, same_outline]

mutual

theorem toRaw_outline : ∀ e : Expr, e.outline.toRaw = e.toRaw
  | number _ => rfl
  | symbol _ _ _ => rfl
  | application f ops _ _ => congrArg (fun rs => Raw.list (.name f :: rs)) (toRawAll_outlineAll ops)
  | error _ _ none => rfl
  | error code details (some x) =>
      congrArg (fun r => Raw.list (.name "Error" :: .name code :: details.map Raw.name ++ [r]))
        (toRaw_outline x)

theorem toRawAll_outlineAll : ∀ es : List Expr, toRawAll (outlineAll es) = toRawAll es
  | [] => rfl
  | e :: rest => congrArg₂ List.cons (toRaw_outline e) (toRawAll_outlineAll rest)

end

theorem text_congr {e e' : Expr} (h : e.outline = e'.outline) : e.text = e'.text := by
  rw [text, ← toRaw_outline, h, toRaw_outline, text]

mutual

theorem isValid_outline : ∀ e : Expr, e.outline.isValid = e.isValid
  | number _ => rfl
  | symbol _ _ _ => rfl
  | application _ ops _ _ => allValid_outlineAll ops
  | error _ _ none => rfl
  | error _ _ (some _) => rfl

theorem allValid_outlineAll : ∀ es : List Expr, allValid (outlineAll es) = allValid es
  | [] => rfl
  | e :: rest => congrArg₂ (· && ·) (isValid_outline e) (allValid_outlineAll rest)

end

end Expr

/-! ## Surfaces -/

/-- Whether an application is one of a function that its name stands for now, and that holds its operands
back. -/
def DefinitionTable.keeps (t : DefinitionTable) (f : String) (d : Option Nat) : Bool :=
  t.holdsOperands f && d == t.functionNumber? f

namespace Expr

mutual

/-- What checks see of an expression: of what is held back, and of what stands below errors, the outline
only. -/
def surface (t : DefinitionTable) : Expr → Expr
  | number v => number v
  | symbol n d c => symbol n d c
  | application f ops d c =>
      application f (if t.keeps f d then outlineAll ops else surfaceAll t ops) d c
  | error code details operand =>
      error code details (operand.map outline)

def surfaceAll (t : DefinitionTable) : List Expr → List Expr
  | [] => []
  | e :: rest => surface t e :: surfaceAll t rest

end

section

variable {t t' : DefinitionTable}

theorem surfaceAll_eq_map (es : List Expr) : surfaceAll t es = es.map (surface t) := by
  induction es with
  | nil => rfl
  | cons e rest ih => rw [surfaceAll, ih, List.map_cons]

mutual

@[simp] theorem outline_surface : ∀ e : Expr, (e.surface t).outline = e.outline
  | number _ => rfl
  | symbol _ _ _ => rfl
  | application f ops d c => by
      rw [surface, outline, outline]
      split
      next => rw [outlineAll_outlineAll]
      next => rw [outlineAll_surfaceAll ops]
  | error _ _ none => rfl
  | error code details (some x) =>
      congrArg (fun x => error code details (some x)) (outline_outline x)

@[simp] theorem outlineAll_surfaceAll : ∀ es : List Expr,
    outlineAll (surfaceAll t es) = outlineAll es
  | [] => rfl
  | e :: rest => congrArg₂ List.cons (outline_surface e) (outlineAll_surfaceAll rest)

end

mutual

/-- A surface does not change when more is held back. -/
theorem surface_surface (h : ∀ f d, t.keeps f d = true → t'.keeps f d = true) :
    ∀ e : Expr, (e.surface t).surface t' = e.surface t'
  | number _ => rfl
  | symbol _ _ _ => rfl
  | application f ops d c => by
      rw [surface, surface, surface]
      congr 1
      cases hd : t'.keeps f d with
      | true =>
          rw [if_pos rfl, if_pos rfl]
          split
          next => exact outlineAll_outlineAll ops
          next => exact outlineAll_surfaceAll ops
      | false =>
          have hnot : t.keeps f d = false := Bool.eq_false_iff.2 fun hkeeps => by
            rw [h f d hkeeps] at hd
            cases hd
          rw [hnot]
          exact surfaceAll_surfaceAll h ops
  | error _ _ none => rfl
  | error code details (some x) =>
      congrArg (fun x => error code details (some x)) (outline_outline x)

theorem surfaceAll_surfaceAll (h : ∀ f d, t.keeps f d = true → t'.keeps f d = true) :
    ∀ es : List Expr, surfaceAll t' (surfaceAll t es) = surfaceAll t' es
  | [] => rfl
  | e :: rest => congrArg₂ List.cons (surface_surface h e) (surfaceAll_surfaceAll h rest)

end

theorem outline_of_surface {e e' : Expr} (h : e.surface t = e'.surface t) : e.outline = e'.outline := by
  rw [← outline_surface (t := t) e, h, outline_surface]

theorem outlineAll_of_surfaceAll {es es' : List Expr} (h : surfaceAll t es = surfaceAll t es') :
    outlineAll es = outlineAll es' := by
  rw [← outlineAll_surfaceAll (t := t) es, h, outlineAll_surfaceAll]

@[simp] theorem isValid_surface (e : Expr) : (e.surface t).isValid = e.isValid := by
  rw [← isValid_outline, outline_surface, isValid_outline]

@[simp] theorem text_surface (e : Expr) : (e.surface t).text = e.text := text_congr (outline_surface e)

@[simp] theorem definition?_surface (e : Expr) : (e.surface t).definition? = e.definition? := by
  cases e <;> rfl

@[simp] theorem operator_surface (e : Expr) : (e.surface t).operator = e.operator := by cases e <;> rfl

@[simp] theorem isSymbol_surface (e : Expr) : (e.surface t).isSymbol = e.isSymbol := by cases e <;> rfl

@[simp] theorem isApplication_surface (e : Expr) : (e.surface t).isApplication = e.isApplication := by
  cases e <;> rfl

@[simp] theorem isApplicationOf_surface (f : String) (e : Expr) :
    (e.surface t).isApplicationOf f = e.isApplicationOf f := by cases e <;> rfl

/-- The operands of an application that are not held back. -/
theorem operands_surface {f : String} (hf : t.holdsOperands f = false) {e : Expr}
    (he : e.isApplicationOf f = true) : (e.surface t).operands = surfaceAll t e.operands := by
  cases e with
  | application g ops d c =>
      obtain rfl : g = f := beq_iff_eq.1 he
      rw [surface, operands, operands, DefinitionTable.keeps, hf]
      rfl
  | _ => cases he

/-- A number is all surface. -/
theorem surface_eq_number {e : Expr} {v : Number} : e.surface t = number v ↔ e = number v := by
  cases e <;> simp [surface]

mutual

theorem leaves_surface {a : Option String}
    (ha : ∀ f, isSpliced a f = true → t.holdsOperands f = false) :
    ∀ e : Expr, leaves a (e.surface t) = surfaceAll t (leaves a e)
  | number _ => rfl
  | symbol _ _ _ => rfl
  | application f ops d c => by
      rw [surface, leaves, leaves]
      split
      next hf =>
        rw [DefinitionTable.keeps, ha f hf]
        exact flatten_surfaceAll ha ops
      next => rfl
  | error _ _ _ => rfl

/-- What splices holds nothing back. -/
theorem flatten_surfaceAll {a : Option String}
    (ha : ∀ f, isSpliced a f = true → t.holdsOperands f = false) :
    ∀ es : List Expr, flatten a (surfaceAll t es) = surfaceAll t (flatten a es)
  | [] => rfl
  | e :: rest => by
      rw [surfaceAll, flatten, flatten, leaves_surface ha e, flatten_surfaceAll ha rest,
        surfaceAll_eq_map, surfaceAll_eq_map, surfaceAll_eq_map, List.map_append]

end

end

end Expr

/-! ## Checks -/

/-- A table in which what holds its operands back has a type that does not depend on them, and operands
that are spliced, negated or listed are not held back. -/
structure DefinitionTable.HoldsPlainly (t : DefinitionTable) : Prop where
  fixed : ∀ {f}, t.holdsOperands f = true → ∃ i g type, t.functionNumber? f = some i ∧
    t.get? i = some (.function g) ∧ g.signature.result = .fixed type
  opened : ∀ {f}, f ∈ ["Sequence", "Negate", "List"] → t.holdsOperands f = false

namespace DefinitionTable

variable {t : DefinitionTable}

@[simp] theorem definitionOf_surface (e : Expr) : t.definitionOf (e.surface t) = t.definitionOf e := by
  rw [definitionOf, Expr.definition?_surface, definitionOf]

namespace HoldsPlainly

mutual

/-- **The type of an expression is that of its surface.** -/
theorem typeOf_surface (ht : t.HoldsPlainly) : ∀ e : Expr, t.typeOf (e.surface t) = t.typeOf e
  | .number _ => rfl
  | .symbol _ _ _ => rfl
  | .application f ops d c => by
      rw [Expr.surface, typeOf, typeOf]
      cases hkeeps : t.keeps f d with
      | false => rw [if_neg Bool.false_ne_true, typesOf_surfaceAll ht ops]
      | true =>
          rw [keeps, Bool.and_eq_true, beq_iff_eq] at hkeeps
          obtain ⟨i, g, type, hi, hg, hfixed⟩ := ht.fixed hkeeps.1
          rw [hkeeps.2, hi, Option.bind_some, hg]
          simp only [hfixed]
          rfl
  | .error _ _ _ => rfl

theorem typesOf_surfaceAll (ht : t.HoldsPlainly) :
    ∀ es : List Expr, t.typesOf (Expr.surfaceAll t es) = t.typesOf es
  | [] => rfl
  | e :: rest => congrArg₂ List.cons (typeOf_surface ht e) (typesOf_surfaceAll ht rest)

end

theorem isNumeric_surface (ht : t.HoldsPlainly) (e : Expr) :
    t.isNumeric (e.surface t) = t.isNumeric e := by
  rw [isNumeric, ht.typeOf_surface, isNumeric]

/-- What is spliced by sequences, or by an operator that holds nothing back. -/
theorem not_holdsOperands (ht : t.HoldsPlainly) {a : Option String}
    (ha : ∀ f, a = some f → t.holdsOperands f = false) (f : String)
    (hf : Expr.isSpliced a f = true) : t.holdsOperands f = false := by
  rw [Expr.isSpliced, Bool.or_eq_true, beq_iff_eq, beq_iff_eq] at hf
  rcases hf with rfl | hf
  · exact ht.opened (by decide)
  · exact ha f hf

end HoldsPlainly

end DefinitionTable

namespace Kernel

open SymbolicAlgebra.Expr

variable {t : DefinitionTable}

@[simp] theorem isCollection_surface (e : Expr) : isCollection (e.surface t) = isCollection e :=
  isApplicationOf_surface _ e

@[simp] theorem isInferred_surface (e : Expr) : isInferred t (e.surface t) = isInferred t e := by
  rw [isInferred, DefinitionTable.definitionOf_surface, isInferred]

@[simp] theorem isHeld_surface (e : Expr) : isHeld t (e.surface t) = isHeld t e := by
  rw [isHeld, DefinitionTable.definitionOf_surface, operator_surface, isHeld]

theorem acceptsNumber_surface (ht : t.HoldsPlainly) (e : Expr) :
    acceptsNumber t (e.surface t) = acceptsNumber t e := by
  rw [acceptsNumber, acceptsNumber, ht.isNumeric_surface, isSymbol_surface,
    DefinitionTable.definitionOf_surface, ht.typeOf_surface, isCollection_surface, isInferred_surface,
    isHeld_surface]
  congr 1
  split
  next hc =>
    rw [operands_surface (ht.opened (by decide)) hc, surfaceAll_eq_map, List.all_map]
    exact congrArg (List.all _) (funext ht.isNumeric_surface)
  next => rfl

/-- The surface of an error does not show what stands below it. -/
theorem mismatch_surface (expected actual : TypeName) (e : Expr) :
    (mismatch expected actual (e.surface t)).surface t = (mismatch expected actual e).surface t := by
  rw [mismatch, mismatch, surface, surface, Option.map_some, Option.map_some, outline_surface]

theorem unexpected_surface (e : Expr) : unexpected (e.surface t) = unexpected e := by
  rw [unexpected, text_surface, unexpected]

/-- A check of an operand, and whether it was accepted, on the surface. -/
def verdict (t : DefinitionTable) (q : Expr × Bool) : Expr × Bool := (q.1.surface t, q.2)

theorem checkNumber_surface (ht : t.HoldsPlainly) (e : Expr) :
    verdict t (checkNumber t (e.surface t)) = verdict t (checkNumber t e) := by
  have hsurface : (e.surface t).surface t = e.surface t := surface_surface (fun _ _ h => h) e
  rw [checkNumber, checkNumber, isValid_surface, acceptsNumber_surface ht, ht.typeOf_surface]
  split
  next => rw [verdict, verdict, hsurface]
  next =>
    split
    next => rw [verdict, verdict, hsurface]
    next => rw [verdict, verdict, mismatch_surface]

theorem checkParameter_surface (ht : t.HoldsPlainly) (held threadable : Bool) (e : Expr)
    (param : TypeName) : verdict t (checkParameter t held threadable (e.surface t) param) =
      verdict t (checkParameter t held threadable e param) := by
  have hsurface : (e.surface t).surface t = e.surface t := surface_surface (fun _ _ h => h) e
  have hsame : ∀ b, verdict t (e.surface t, b) = verdict t (e, b) := fun b => by
    rw [verdict, verdict, hsurface]
  unfold checkParameter
  simp only [isValid_surface, ht.typeOf_surface, isCollection_surface, isInferred_surface]
  repeat' split
  all_goals first
    | exact hsame _
    | rw [verdict, verdict, mismatch_surface]

theorem groupType_surfaceAll (ht : t.HoldsPlainly) (ops : List Expr) :
    groupType t (surfaceAll t ops) = groupType t ops := by
  rw [groupType, groupType, surfaceAll_eq_map, List.any_map]
  simp only [Function.comp_def, ht.typeOf_surface]

section Congruence

variable {ops ops' : List Expr}

theorem length_of_surfaceAll (h : surfaceAll t ops = surfaceAll t ops') : ops.length = ops'.length := by
  have := congrArg List.length h
  rwa [surfaceAll_eq_map, surfaceAll_eq_map, List.length_map, List.length_map] at this

/-- Checks of operands with one surface. -/
theorem map_verdict_congr {check : Expr → Expr × Bool}
    (hcheck : ∀ e, verdict t (check (e.surface t)) = verdict t (check e))
    (h : surfaceAll t ops = surfaceAll t ops') :
    (ops.map check).map (verdict t) = (ops'.map check).map (verdict t) := by
  have hmap : ∀ es : List Expr,
      (es.map check).map (verdict t) = ((surfaceAll t es).map check).map (verdict t) := by
    intro es
    rw [surfaceAll_eq_map, List.map_map, List.map_map, List.map_map]
    exact List.map_congr_left fun e _ => (hcheck e).symm
  rw [hmap, h, ← hmap]

theorem all_congr {qs qs' : List (Expr × Bool)} (h : qs.map (verdict t) = qs'.map (verdict t)) :
    qs.all (·.2) = qs'.all (·.2) := by
  have hall : ∀ qs : List (Expr × Bool), qs.all (·.2) = (qs.map (verdict t)).all (·.2) := fun qs => by
    rw [List.all_map]
    rfl
  rw [hall, h, ← hall]

theorem surfaceAll_map_fst {qs qs' : List (Expr × Bool)}
    (h : qs.map (verdict t) = qs'.map (verdict t)) :
    surfaceAll t (qs.map (·.1)) = surfaceAll t (qs'.map (·.1)) := by
  have hfst : ∀ qs : List (Expr × Bool),
      surfaceAll t (qs.map (·.1)) = (qs.map (verdict t)).map (·.1) := fun qs => by
    rw [surfaceAll_eq_map, List.map_map, List.map_map]
    rfl
  rw [hfst, h, ← hfst]

theorem surfaceAll_append (es es' : List Expr) :
    surfaceAll t (es ++ es') = surfaceAll t es ++ surfaceAll t es' := by
  rw [surfaceAll_eq_map, surfaceAll_eq_map, surfaceAll_eq_map, List.map_append]

theorem surfaceAll_take (h : surfaceAll t ops = surfaceAll t ops') (n : Nat) :
    surfaceAll t (ops.take n) = surfaceAll t (ops'.take n) := by
  rw [surfaceAll_eq_map, surfaceAll_eq_map, List.map_take, List.map_take, ← surfaceAll_eq_map, h,
    surfaceAll_eq_map]

/-- Superfluous operands with one surface are shown alike. -/
theorem map_unexpected_congr (h : surfaceAll t ops = surfaceAll t ops') (n : Nat) :
    (ops.drop n).map unexpected = (ops'.drop n).map unexpected := by
  have hmap : ∀ es : List Expr, es.map unexpected = (surfaceAll t es).map unexpected := by
    intro es
    rw [surfaceAll_eq_map, List.map_map]
    exact List.map_congr_left fun e _ => (unexpected_surface e).symm
  rw [List.map_drop, List.map_drop, hmap, h, ← hmap]

/-- **Operands with one surface are checked alike.** -/
theorem surfaceAll_checkedNumbers (ht : t.HoldsPlainly) (h : surfaceAll t ops = surfaceAll t ops')
    (count : Nat) : surfaceAll t (checkedNumbers t count ops) =
      surfaceAll t (checkedNumbers t count ops') := by
  simp only [checkedNumbers, drop_fit, surfaceAll_append]
  rw [surfaceAll_map_fst (map_verdict_congr (checkNumber_surface ht) (surfaceAll_take h count)),
    length_of_surfaceAll h, map_unexpected_congr h]

theorem map_checkParameter_congr (ht : t.HoldsPlainly) (h : surfaceAll t ops = surfaceAll t ops')
    (held threadable : Bool) (params : List TypeName) :
    ((ops.zip params).map fun q => checkParameter t held threadable q.1 q.2).map (verdict t) =
      ((ops'.zip params).map fun q => checkParameter t held threadable q.1 q.2).map (verdict t) := by
  have hmap : ∀ es : List Expr,
      ((es.zip params).map fun q => checkParameter t held threadable q.1 q.2).map (verdict t) =
        (((surfaceAll t es).zip params).map fun q =>
          checkParameter t held threadable q.1 q.2).map (verdict t) := by
    intro es
    rw [surfaceAll_eq_map, List.zip_map_left, List.map_map, List.map_map, List.map_map]
    exact List.map_congr_left fun q _ => (checkParameter_surface ht held threadable q.1 q.2).symm
  rw [hmap, h, ← hmap]

theorem surfaceAll_checkedParameters (ht : t.HoldsPlainly)
    (h : surfaceAll t ops = surfaceAll t ops') (s : Signature) (held threadable : Bool) :
    surfaceAll t (checkedParameters t s held threadable ops) =
      surfaceAll t (checkedParameters t s held threadable ops') := by
  simp only [checkedParameters, surfaceAll_append, length_of_surfaceAll h]
  rw [surfaceAll_map_fst (map_checkParameter_congr ht h held threadable _), map_unexpected_congr h]

theorem groupType_congr (ht : t.HoldsPlainly) (h : surfaceAll t ops = surfaceAll t ops') :
    groupType t ops = groupType t ops' := by
  rw [← groupType_surfaceAll ht, h, groupType_surfaceAll ht]

end Congruence

/-! ## Inference -/

/-- What is inferred of an expression does not depend on what is below its surface. -/
theorem infer_surface (e : Expr) (type : TypeName) : infer (e.surface t) type = infer e type := by
  unfold infer
  simp only [DefinitionTable.definitionOf, definition?_surface, isSymbol_surface,
    isApplication_surface]

theorem inferAll_surfaceAll (ht : t.holdsOperands "List" = false) (ops : List Expr) (type : TypeName)
    (skip : Bool) : inferAll (surfaceAll t ops) type skip = inferAll ops type skip := by
  rw [inferAll, inferAll, surfaceAll_eq_map, List.forM_eq_forM, List.forM_map]
  congr 1
  funext e
  simp only [isCollection_surface, infer_surface]
  split
  next hc =>
    rw [operands_surface ht hc, surfaceAll_eq_map, List.forM_map]
    simp only [infer_surface]
  next => rfl

theorem inferParameters_surfaceAll (threadable : Bool) (ops : List Expr) (params : List TypeName) :
    inferParameters threadable (surfaceAll t ops) params = inferParameters threadable ops params := by
  rw [inferParameters, inferParameters, surfaceAll_eq_map, List.zip_map_left,
    List.forM_eq_forM, List.forM_map]
  congr 1
  funext q
  simp only [Prod.map_fst, Prod.map_snd, isCollection_surface, infer_surface, id]

end Kernel

end SymbolicAlgebra
