import Mathlib.Data.List.Forall2
import SymbolicAlgebra.Kernel.Flatten
import SymbolicAlgebra.Proofs.Exact

/-!
# Proofs/Structure — expressions without definitions and flags

`Expr.bare` drops what `Expr.same` ignores: the definitions that symbols and applications were built
with, and whether they are canonical.  Over exact numbers the two expressions are the same if and
only if they are equal once they are bare (`Expr.same_iff`), so that what is said up to structure can
be said by equations.
-/

namespace SymbolicAlgebra

namespace Expr

/-! ## Literals -/

mutual

/-- Whether an expression is free of errors and all its literals satisfy `p`. -/
def isOver (p : Number → Bool) : Expr → Bool
  | number v => p v
  | symbol _ _ _ => true
  | application _ ops _ _ => allOver p ops
  | error _ _ _ => false

def allOver (p : Number → Bool) : List Expr → Bool
  | [] => true
  | e :: rest => isOver p e && allOver p rest

end

theorem allOver_iff {p : Number → Bool} {es : List Expr} :
    allOver p es = true ↔ ∀ e ∈ es, e.isOver p = true := by
  induction es with
  | nil => simp [allOver]
  | cons e rest ih => simp [allOver, ih]

mutual

theorem isOver_mono {p q : Number → Bool} (h : ∀ v, p v = true → q v = true) :
    ∀ {e : Expr}, e.isOver p = true → e.isOver q = true
  | number v, he => h v he
  | symbol _ _ _, _ => rfl
  | application _ _ _ _, he => allOver_mono h he
  | error _ _ _, he => he

theorem allOver_mono {p q : Number → Bool} (h : ∀ v, p v = true → q v = true) :
    ∀ {es : List Expr}, allOver p es = true → allOver q es = true
  | [], _ => rfl
  | e :: rest, he => by
      rw [allOver, Bool.and_eq_true] at he ⊢
      exact ⟨isOver_mono h he.1, allOver_mono h he.2⟩

end

mutual

theorem isValid_of_isOver {p : Number → Bool} :
    ∀ {e : Expr}, e.isOver p = true → e.isValid = true
  | number _, _ => rfl
  | symbol _ _ _, _ => rfl
  | application _ _ _ _, he => allValid_of_allOver he
  | error _ _ _, he => he

theorem allValid_of_allOver {p : Number → Bool} :
    ∀ {es : List Expr}, allOver p es = true → allValid es = true
  | [], _ => rfl
  | e :: rest, he => by
      rw [allOver, Bool.and_eq_true] at he
      rw [allValid, Bool.and_eq_true]
      exact ⟨isValid_of_isOver he.1, allValid_of_allOver he.2⟩

end

/-- Whether an expression is free of errors and of approximate numbers. -/
abbrev isExact (e : Expr) : Bool := e.isOver Number.isExact

/-! ## Bare expressions -/

/-- An application without a definition. -/
abbrev node (f : String) (ops : List Expr) : Expr := application f ops none true

mutual

/-- The expression without definitions and flags. -/
def bare : Expr → Expr
  | number v => number v
  | symbol n _ _ => symbol n none true
  | application f ops _ _ => node f (bareAll ops)
  | error code details _ => error code details none

def bareAll : List Expr → List Expr
  | [] => []
  | e :: rest => bare e :: bareAll rest

end

theorem bareAll_eq_map (es : List Expr) : bareAll es = es.map bare := by
  induction es with
  | nil => rfl
  | cons e rest ih => rw [bareAll, ih, List.map_cons]

@[simp] theorem bare_number (v : Number) : (number v).bare = number v := rfl

@[simp] theorem bare_symbol (n : String) (d : Option Nat) (c : Bool) :
    (symbol n d c).bare = symbol n none true := rfl

@[simp] theorem bare_application (f : String) (ops : List Expr) (d : Option Nat) (c : Bool) :
    (application f ops d c).bare = node f (ops.map bare) := by
  rw [bare, bareAll_eq_map]

@[simp] theorem operator_bare (e : Expr) : e.bare.operator = e.operator := by cases e <;> rfl

@[simp] theorem operands_bare (e : Expr) : e.bare.operands = e.operands.map bare := by
  cases e <;> simp [operands, bare, bareAll_eq_map]

@[simp] theorem isApplicationOf_bare (f : String) (e : Expr) :
    e.bare.isApplicationOf f = e.isApplicationOf f := by cases e <;> rfl

@[simp] theorem isNumber_bare (e : Expr) : e.bare.isNumber = e.isNumber := by cases e <;> rfl

mutual

@[simp] theorem isOver_bare (p : Number → Bool) : ∀ e : Expr, e.bare.isOver p = e.isOver p
  | number _ => rfl
  | symbol _ _ _ => rfl
  | application _ ops _ _ => allOver_bareAll p ops
  | error _ _ _ => rfl

theorem allOver_bareAll (p : Number → Bool) : ∀ es : List Expr, allOver p (bareAll es) = allOver p es
  | [] => rfl
  | e :: rest => by rw [bareAll, allOver, isOver_bare p e, allOver_bareAll p rest, allOver]

end

mutual

@[simp] theorem bare_bare : ∀ e : Expr, e.bare.bare = e.bare
  | number _ => rfl
  | symbol _ _ _ => rfl
  | application f ops _ _ => congrArg (node f) (bareAll_bareAll ops)
  | error _ _ _ => rfl

theorem bareAll_bareAll : ∀ es : List Expr, bareAll (bareAll es) = bareAll es
  | [] => rfl
  | e :: rest => by rw [bareAll, bareAll, bare_bare e, bareAll_bareAll rest]

end

mutual

/-- **Over exact numbers, equality of structure is equality of what is left when definitions and
flags are dropped.** -/
theorem same_iff : ∀ {e x : Expr}, e.isExact = true → (e.same x = true ↔ e.bare = x.bare)
  | number v, x, he => by
      cases x with
      | number w => simpa [same] using Number.same_iff he
      | _ => simp [same, bare]
  | symbol n _ _, x, _ => by cases x <;> simp [same, bare]
  | application f xs _ _, x, he => by
      cases x with
      | application g ys _ _ => simp [same, bare, sameAll_iff (show allOver _ xs = true from he)]
      | _ => simp [same, bare]
  | error _ _ _, _, he => by cases he

theorem sameAll_iff : ∀ {xs ys : List Expr}, allOver Number.isExact xs = true →
    (sameAll xs ys = true ↔ bareAll xs = bareAll ys)
  | [], [], _ => by simp [sameAll]
  | [], _ :: _, _ => by simp [sameAll, bareAll]
  | _ :: _, [], _ => by simp [sameAll, bareAll]
  | x :: xs, y :: ys, he => by
      rw [allOver, Bool.and_eq_true] at he
      rw [sameAll, Bool.and_eq_true, same_iff he.1, sameAll_iff he.2, bareAll, bareAll,
        List.cons.injEq]

end

theorem same_bare {e x : Expr} (he : e.isExact = true) : e.bare.same x.bare = e.same x := by
  rw [Bool.eq_iff_iff, same_iff he, same_iff ((isOver_bare _ e).trans he), bare_bare, bare_bare]

/-- What has the structure of an expression over exact numbers is one itself. -/
theorem isOver_of_same {p : Number → Bool} {e x : Expr} (he : e.isExact = true)
    (h : e.same x = true) : x.isOver p = e.isOver p := by
  rw [← isOver_bare p x, ← (same_iff he).1 h, isOver_bare]

/-! ## Flattening -/

section Flatten

variable {a : Option String}

theorem isSpliced_some {a f : String} : isSpliced (some a) f = true ↔ f = "Sequence" ∨ f = a := by
  rw [isSpliced, Bool.or_eq_true, beq_iff_eq, beq_iff_eq, Option.some.injEq, @eq_comm _ a f]

theorem flatten_eq_flatMap (es : List Expr) : flatten a es = es.flatMap (leaves a) := by
  induction es with
  | nil => rfl
  | cons e rest ih => rw [flatten, ih, List.flatMap_cons]

mutual

/-- A property that splicing hands down to operands holds of every leaf. -/
theorem forall_leaves {P : Expr → Prop}
    (hP : ∀ f ops d c, isSpliced a f = true → P (application f ops d c) → ∀ x ∈ ops, P x) :
    ∀ {e : Expr}, P e → ∀ x ∈ leaves a e, P x
  | number _, he => by simpa [leaves] using he
  | symbol _ _ _, he => by simpa [leaves] using he
  | application f ops d c, he => by
      rw [leaves]
      split
      next hf => exact forall_flatten hP (hP f ops d c hf he)
      next => simpa using he
  | error _ _ _, he => by simpa [leaves] using he

theorem forall_flatten {P : Expr → Prop}
    (hP : ∀ f ops d c, isSpliced a f = true → P (application f ops d c) → ∀ x ∈ ops, P x) :
    ∀ {es : List Expr}, (∀ e ∈ es, P e) → ∀ x ∈ flatten a es, P x
  | [], _ => by simp [flatten]
  | e :: rest, he => by
      intro x hx
      rw [flatten, List.mem_append] at hx
      rcases hx with hx | hx
      · exact forall_leaves hP (he e (by simp)) x hx
      · exact forall_flatten hP (fun y hy => he y (by simp [hy])) x hx

end

mutual

/-- What is computed from a list piece by piece, and does not notice splicing, does not notice
flattening. -/
theorem leaves_invariant {β : Type*} {F : List Expr → β} {g : β → β → β} {P : Expr → Prop}
    (happend : ∀ xs ys, F (xs ++ ys) = g (F xs) (F ys))
    (hP : ∀ f ops d c, isSpliced a f = true → P (application f ops d c) → ∀ x ∈ ops, P x)
    (hF : ∀ f ops d c, isSpliced a f = true → P (application f ops d c) →
      F [application f ops d c] = F ops) : ∀ {e : Expr}, P e → F (leaves a e) = F [e]
  | number _, _ => rfl
  | symbol _ _ _, _ => rfl
  | application f ops d c, he => by
      rw [leaves]
      split
      next hf =>
        rw [hF f ops d c hf he]
        exact flatten_invariant happend hP hF (hP f ops d c hf he)
      next => rfl
  | error _ _ _, _ => rfl

theorem flatten_invariant {β : Type*} {F : List Expr → β} {g : β → β → β} {P : Expr → Prop}
    (happend : ∀ xs ys, F (xs ++ ys) = g (F xs) (F ys))
    (hP : ∀ f ops d c, isSpliced a f = true → P (application f ops d c) → ∀ x ∈ ops, P x)
    (hF : ∀ f ops d c, isSpliced a f = true → P (application f ops d c) →
      F [application f ops d c] = F ops) :
    ∀ {es : List Expr}, (∀ e ∈ es, P e) → F (flatten a es) = F es
  | [], _ => rfl
  | e :: rest, he => by
      rw [List.forall_mem_cons] at he
      rw [flatten, happend, leaves_invariant happend hP hF he.1,
        flatten_invariant happend hP hF he.2, ← happend, List.singleton_append]

end

mutual

theorem leaves_bare : ∀ e : Expr, leaves a e.bare = (leaves a e).map bare
  | number _ => rfl
  | symbol _ _ _ => rfl
  | application f ops d c => by
      rw [bare, leaves, leaves]
      split
      next => exact flatten_bareAll ops
      next => simp [bareAll_eq_map]
  | error _ _ _ => rfl

/-- Flattening does not look at definitions and flags. -/
theorem flatten_bareAll : ∀ es : List Expr, flatten a (bareAll es) = (flatten a es).map bare
  | [] => rfl
  | e :: rest => by rw [bareAll, flatten, leaves_bare e, flatten_bareAll rest, flatten,
      List.map_append]

end

theorem flatten_map_bare (es : List Expr) : flatten a (es.map bare) = (flatten a es).map bare := by
  rw [← bareAll_eq_map, flatten_bareAll]

/-- Whether an expression is not spliced. -/
def isLeaf (a : Option String) : Expr → Bool
  | application f _ _ _ => !isSpliced a f
  | _ => true

theorem leaves_of_isLeaf {e : Expr} (h : e.isLeaf a = true) : leaves a e = [e] := by
  cases e with
  | application f ops d c =>
      have hf : ¬isSpliced a f = true := by simpa [isLeaf] using h
      rw [leaves, if_neg hf]
  | _ => rfl

mutual

/-- No leaf is spliced again. -/
theorem isLeaf_of_mem_leaves : ∀ {e x : Expr}, x ∈ leaves a e → x.isLeaf a = true
  | number _, x, hx => by
      rw [List.mem_singleton.1 hx]
      rfl
  | symbol _ _ _, x, hx => by
      rw [List.mem_singleton.1 hx]
      rfl
  | application f ops d c, x, hx => by
      rw [leaves] at hx
      split at hx
      next => exact isLeaf_of_mem_flatten hx
      next hf =>
        rw [List.mem_singleton.1 hx]
        simpa [isLeaf] using hf
  | error _ _ _, x, hx => by
      rw [List.mem_singleton.1 hx]
      rfl

theorem isLeaf_of_mem_flatten : ∀ {es : List Expr} {x : Expr}, x ∈ flatten a es → x.isLeaf a = true
  | e :: rest, x, hx => by
      rw [flatten, List.mem_append] at hx
      rcases hx with hx | hx
      · exact isLeaf_of_mem_leaves hx
      · exact isLeaf_of_mem_flatten hx

end

/-- Leaves stay as they are. -/
theorem flatten_of_isLeaf {es : List Expr} (h : ∀ e ∈ es, e.isLeaf a = true) :
    flatten a es = es := by
  induction es with
  | nil => rfl
  | cons e rest ih =>
      rw [flatten, leaves_of_isLeaf (h e (by simp)), ih fun x hx => h x (by simp [hx]),
        List.singleton_append]

theorem isLeaf_none {e : Expr} (h : e.isLeaf a = true) : e.isLeaf none = true := by
  cases e with
  | application f ops d c =>
      rw [isLeaf, Bool.not_eq_true', isSpliced, Bool.or_eq_false_iff] at h
      rw [isLeaf, isSpliced, h.1]
      rfl
  | _ => rfl

/-- Nothing is left to be spliced. -/
theorem flatten_none_flatten (a : Option String) (es : List Expr) :
    flatten none (flatten a es) = flatten a es :=
  flatten_of_isLeaf fun _ he => isLeaf_none (isLeaf_of_mem_flatten he)

end Flatten

/-! ## Errors among operands -/

theorem allValid_iff {es : List Expr} : allValid es = true ↔ ∀ e ∈ es, e.isValid = true := by
  induction es with
  | nil => simp [allValid]
  | cons e rest ih => simp [allValid, ih]

theorem allValid_append (xs ys : List Expr) :
    allValid (xs ++ ys) = (allValid xs && allValid ys) := by
  induction xs with
  | nil => rfl
  | cons x rest ih => rw [List.cons_append, allValid, ih, allValid, Bool.and_assoc]

theorem allValid_singleton (e : Expr) : allValid [e] = e.isValid := by
  rw [allValid, allValid, Bool.and_true]

theorem allValid_pair (a b : Expr) : allValid [a, b] = (a.isValid && b.isValid) := by
  rw [allValid, allValid_singleton]

/-- Flattening neither hides nor invents errors. -/
theorem allValid_flatten (a : Option String) (es : List Expr) :
    allValid (flatten a es) = allValid es :=
  flatten_invariant (P := fun _ => True) allValid_append (fun _ _ _ _ _ _ _ _ => trivial)
    (fun _ _ _ _ _ _ => allValid_singleton _) fun _ _ => trivial

/-! ## Along one structure -/

/-- A relation of expressions, and one of lists of them, that hold along one structure: what is shown for
each constructor. -/
structure Congruence (M : Expr → Expr → Prop) (N : List Expr → List Expr → Prop) : Prop where
  number : ∀ {v w : Number}, v.same w = true → M (number v) (number w)
  symbol : ∀ {n : String} {d d' : Option Nat} {c c' : Bool}, M (symbol n d c) (symbol n d' c')
  application : ∀ {f : String} {xs ys : List Expr} {d d' : Option Nat} {c c' : Bool},
    sameAll xs ys = true → N xs ys → M (application f xs d c) (application f ys d' c')
  error : ∀ {code : String} {details : List String} {x y : Option Expr}, Option.Rel M x y →
    M (error code details x) (error code details y)
  nil : N [] []
  cons : ∀ {x y : Expr} {xs ys : List Expr}, x.same y = true → M x y → N xs ys → N (x :: xs) (y :: ys)

namespace Congruence

variable {M : Expr → Expr → Prop} {N : List Expr → List Expr → Prop}

mutual

/-- **What holds along one structure holds of expressions that are the same.** -/
theorem of_same (h : Congruence M N) : ∀ {e x : Expr}, e.same x = true → M e x
  | .number _, x, hs => by
      cases x with
      | number _ => exact h.number hs
      | _ => cases hs
  | .symbol _ _ _, x, hs => by
      cases x with
      | symbol _ _ _ =>
          obtain rfl := beq_iff_eq.1 hs
          exact h.symbol
      | _ => cases hs
  | .application _ _ _ _, x, hs => by
      cases x with
      | application _ _ _ _ =>
          rw [same, Bool.and_eq_true, beq_iff_eq] at hs
          obtain ⟨rfl, hs⟩ := hs
          exact h.application hs (h.of_sameAll hs)
      | _ => cases hs
  | .error _ _ none, x, hs => by
      cases x with
      | error _ _ y =>
          cases y with
          | none =>
              simp only [same, Bool.and_true, Bool.and_eq_true, beq_iff_eq] at hs
              obtain ⟨rfl, rfl⟩ := hs
              exact h.error .none
          | some _ => simp [same] at hs
      | _ => cases hs
  | .error _ _ (some _), x, hs => by
      cases x with
      | error _ _ y =>
          cases y with
          | none => simp [same] at hs
          | some _ =>
              simp only [same, Bool.and_eq_true, beq_iff_eq] at hs
              obtain ⟨⟨rfl, rfl⟩, hs⟩ := hs
              exact h.error (.some (h.of_same hs))
      | _ => cases hs

theorem of_sameAll (h : Congruence M N) : ∀ {xs ys : List Expr}, sameAll xs ys = true → N xs ys
  | [], [], _ => h.nil
  | [], _ :: _, hs => by cases hs
  | _ :: _, [], hs => by cases hs
  | _ :: _, _ :: _, hs => by
      rw [sameAll, Bool.and_eq_true] at hs
      exact h.cons hs.1 (h.of_same hs.1) (h.of_sameAll hs.2)

end

end Congruence

theorem sameAll_iff_forall₂ {xs ys : List Expr} :
    sameAll xs ys = true ↔ List.Forall₂ (fun x y => x.same y = true) xs ys := by
  induction xs generalizing ys with
  | nil => cases ys <;> simp [sameAll]
  | cons x xs ih => cases ys <;> simp [sameAll, ih]

theorem congruence_isValid :
    Congruence (fun e x => x.isValid = e.isValid) fun xs ys => allValid ys = allValid xs where
  number _ := rfl
  symbol := rfl
  application _ h := h
  error _ := rfl
  nil := rfl
  cons _ hx hxs := by rw [allValid, allValid, hx, hxs]

/-- Expressions of one structure have the same errors. -/
theorem isValid_of_same {e x : Expr} (h : e.same x = true) : x.isValid = e.isValid :=
  congruence_isValid.of_same h

end Expr

end SymbolicAlgebra
