import SymbolicAlgebra.Proofs.NumberText
import SymbolicAlgebra.Proofs.Sameness
import SymbolicAlgebra.Proofs.Structure

/-!
# Proofs/KeyOrder — the order of keys

Comparing two keys the other way round gives the opposite (`OrderKey.compare_swap`).  Keys tell
valid expressions with exact literals apart: these have equal keys only if they are the same
(`OrderKey.same_of_compare`).  Errors lose their operands in a key, and numbers of two lanes may
share a text.
-/

namespace SymbolicAlgebra

/-! ## Orderings -/

section Ordering

variable {α : Type} [LT α] [DecidableLT α]

theorem orderingOf_swap [h : Std.Asymm (α := α) (· < ·)] (x y : α) :
    orderingOf y x = (orderingOf x y).swap := by
  unfold orderingOf
  by_cases hxy : x < y
  · rw [if_neg (h.asymm x y hxy), if_pos hxy, if_pos hxy]
    rfl
  · by_cases hyx : y < x
    · rw [if_pos hyx, if_neg hxy, if_pos hyx]
      rfl
    · rw [if_neg hyx, if_neg hxy, if_neg hxy, if_neg hyx]
      rfl

theorem eq_of_orderingOf [ht : Std.Trichotomous (α := α) (· < ·)] {x y : α}
    (h : orderingOf x y = .eq) : x = y := by
  unfold orderingOf at h
  split at h
  next => cases h
  next hxy =>
    split at h
    next => cases h
    next hyx => exact ht.trichotomous x y hxy hyx

end Ordering

instance asymm_double : @Std.Asymm Float (· < ·) := ⟨fun _ _ => Double.lt_asymm⟩

namespace OrderKey

theorem compareTexts_swap : ∀ xs ys : List String,
    compareTexts ys xs = (compareTexts xs ys).swap
  | [], [] => rfl
  | [], _ :: _ => rfl
  | _ :: _, [] => rfl
  | x :: xs, y :: ys => by
      rw [compareTexts, compareTexts, Ordering.swap_then, orderingOf_swap x y,
        compareTexts_swap xs ys]

mutual

/-- **Comparing keys the other way round gives the opposite.** -/
theorem compare_swap : ∀ x y : OrderKey, compare y x = (compare x y).swap
  | number a b s, y => by
      cases y with
      | number c d t =>
          rw [compare, compare, Ordering.swap_then, Ordering.swap_then,
            orderingOf_swap a c, orderingOf_swap b d, orderingOf_swap s t]
      | _ => rfl
  | symbol n, y => by
      cases y with
      | symbol m => exact orderingOf_swap n m
      | _ => rfl
  | error c ds, y => by
      cases y with
      | error c' ds' =>
          rw [compare, compare, Ordering.swap_then, orderingOf_swap c c',
            compareTexts_swap ds ds']
      | _ => rfl
  | application k f n xs, y => by
      cases y with
      | application l g m ys =>
          rw [compare, compare, Ordering.swap_then, Ordering.swap_then, Ordering.swap_then,
            orderingOf_swap k l, orderingOf_swap f g,
            orderingOf_swap n m, compareAll_swap xs ys]
      | _ => rfl

theorem compareAll_swap : ∀ xs ys : List OrderKey, compareAll ys xs = (compareAll xs ys).swap
  | [], [] => rfl
  | [], _ :: _ => rfl
  | _ :: _, [] => rfl
  | x :: xs, y :: ys => by
      rw [compareAll, compareAll, Ordering.swap_then, compare_swap x y, compareAll_swap xs ys]

end

theorem then_eq_eq {a b : Ordering} (h : a.then b = .eq) : a = .eq ∧ b = .eq := by
  cases a <;> simp_all [Ordering.then]

mutual

/-- **Keys tell valid expressions with exact literals apart.** -/
theorem same_of_compare {t : DefinitionTable} : ∀ {a b : Expr}, a.isExact = true →
    b.isExact = true → compare (of t a) (of t b) = .eq → a.same b = true
  | .number v, b, ha, hb, h => by
      cases b with
      | number w =>
          have htext := (then_eq_eq (then_eq_eq h).2).2
          rw [numberText_injective ha hb (eq_of_orderingOf htext)]
          exact Expr.same_refl _
      | error _ _ _ => cases hb
      | _ => cases h
  | .symbol n _ _, b, _, hb, h => by
      cases b with
      | symbol m _ _ =>
          have hname : n = m := eq_of_orderingOf (show orderingOf n m = .eq from h)
          rw [Expr.same, beq_iff_eq, hname]
      | error _ _ _ => cases hb
      | _ => cases h
  | .error _ _ _, _, ha, _, _ => by cases ha
  | .application f xs _ _, b, ha, hb, h => by
      cases b with
      | application g ys _ _ =>
          have hrest := (then_eq_eq h).2
          have hname : f = g := eq_of_orderingOf (then_eq_eq hrest).1
          have hoperands := (then_eq_eq (then_eq_eq hrest).2).2
          rw [Expr.same, Bool.and_eq_true, beq_iff_eq]
          exact ⟨hname, sameAll_of_compareAll ha hb hoperands⟩
      | error _ _ _ => cases hb
      | _ => cases h

theorem sameAll_of_compareAll {t : DefinitionTable} : ∀ {xs ys : List Expr},
    Expr.allOver Number.isExact xs = true → Expr.allOver Number.isExact ys = true →
    compareAll (ofAll t xs) (ofAll t ys) = .eq → Expr.sameAll xs ys = true
  | [], [], _, _, _ => rfl
  | [], _ :: _, _, _, h => by cases h
  | _ :: _, [], _, _, h => by cases h
  | x :: xs, y :: ys, hx, hy, h => by
      rw [Expr.allOver, Bool.and_eq_true] at hx hy
      rw [Expr.sameAll, same_of_compare hx.1 hy.1 (then_eq_eq h).1,
        sameAll_of_compareAll hx.2 hy.2 (then_eq_eq h).2]
      rfl

end

end OrderKey

end SymbolicAlgebra
