import SymbolicAlgebra.Proofs.ResultTypes

/-!
# Proofs/TypeOrder — the types in their order, and rules that keep it

Subtyping is transitive, and the ancestors of a type are a chain in it.  The widest of some types is what
is left of such a chain, so it is above each of them and below everything that is
(`TypeName.widen_isSubtype_iff`), `unknown` apart, which does not count.  Types below each other are equal
(`TypeName.isSubtype_antisymm`), so the widest type depends only on which types there are
(`TypeName.widen_congr`).

A type *sharpens* another one if that is unknown or above it.  Rules for result types keep this:
sharper operands have sharper results (`ResultRule.apply_sharpens`).
-/

namespace SymbolicAlgebra

namespace TypeName

variable {l m r t : TypeName} {types : List TypeName}

theorem isSubtype_any (t : TypeName) : t.isSubtype any = true := if_pos (.inl rfl)

theorem nothing_isSubtype (t : TypeName) : isSubtype nothing t = true := if_pos (.inr rfl)

/-- The special cases of the order, and the ancestors. -/
theorem isSubtype_iff : l.isSubtype r = true ↔ r = any ∨ l = nothing ∨ r ∈ l.ancestors := by
  unfold isSubtype
  split
  next h => exact ⟨fun _ => by tauto, fun _ => rfl⟩
  next h =>
    split
    next hl =>
      subst hl
      simp [ancestors, parent] at h ⊢
      tauto
    next => rw [List.contains_iff_mem]; tauto

/-- The ancestors are the type and those of its parent. -/
theorem mem_ancestors_iff : r ∈ l.ancestors ↔ r = l ∨ ∃ p, l.parent = some p ∧ r ∈ p.ancestors := by
  rw [ancestors]
  split
  next h => simp [h]
  next p h => simp [h]

theorem mem_ancestors_trans (hl : m ∈ l.ancestors) (hr : r ∈ m.ancestors) : r ∈ l.ancestors := by
  induction l using ancestors.induct with
  | case1 t hparent =>
      obtain rfl | ⟨p, hp, -⟩ := mem_ancestors_iff.1 hl
      · exact hr
      · rw [hparent] at hp
        cases hp
  | case2 t p hparent ih =>
      obtain rfl | ⟨q, hq, hl⟩ := mem_ancestors_iff.1 hl
      · exact hr
      · rw [hparent] at hq
        cases hq
        exact mem_ancestors_iff.2 (.inr ⟨p, hparent, ih hl⟩)

/-- **The ancestors of a type are a chain.** -/
theorem ancestors_chain (t : TypeName) : t.ancestors.Pairwise fun l r => r ∈ l.ancestors := by
  induction t using ancestors.induct with
  | case1 t hparent =>
      rw [ancestors]
      split
      · exact List.pairwise_singleton _ _
      · simp_all
  | case2 t p hparent ih =>
      rw [ancestors]
      split
      · exact List.pairwise_singleton _ _
      next q hq =>
        rw [hparent] at hq
        cases hq
        exact ih.cons fun r hr => mem_ancestors_iff.2 (.inr ⟨p, hparent, hr⟩)

/-- Nearer to the root, or the same. -/
theorem depth_lt_of_mem_ancestors (h : r ∈ l.ancestors) : r = l ∨ r.depth < l.depth := by
  induction l using ancestors.induct with
  | case1 t hparent =>
      obtain rfl | ⟨p, hp, -⟩ := mem_ancestors_iff.1 h
      · exact .inl rfl
      · rw [hparent] at hp
        cases hp
  | case2 t p hparent ih =>
      obtain rfl | ⟨q, hq, h⟩ := mem_ancestors_iff.1 h
      · exact .inl rfl
      · rw [hparent] at hq
        cases hq
        have hlt := depth_parent_lt hparent
        obtain rfl | h := ih h
        · exact .inr hlt
        · exact .inr (h.trans hlt)

/-- Only `nothing` is below `nothing`. -/
theorem eq_nothing_of_isSubtype (h : l.isSubtype nothing = true) : l = nothing := by
  rcases isSubtype_iff.1 h with h | h | h
  · cases h
  · exact h
  · revert h
    cases l <;> simp [ancestors, parent]

/-- Only `any` is above `any`. -/
theorem eq_any_of_isSubtype (h : any.isSubtype r = true) : r = any := by
  rcases isSubtype_iff.1 h with h | h | h
  · exact h
  · cases h
  · simpa [ancestors, parent] using h

/-- **Types below each other are equal.** -/
theorem isSubtype_antisymm (hl : l.isSubtype r = true) (hr : r.isSubtype l = true) : l = r := by
  rcases isSubtype_iff.1 hl with rfl | rfl | hlr
  · exact eq_any_of_isSubtype hr
  · exact (eq_nothing_of_isSubtype hr).symm
  · rcases isSubtype_iff.1 hr with rfl | rfl | hrl
    · exact (eq_any_of_isSubtype hl).symm
    · exact eq_nothing_of_isSubtype hl
    · -- otherwise each would be nearer to the root than the other one
      obtain h | hlt := depth_lt_of_mem_ancestors hlr
      · exact h.symm
      obtain h | hgt := depth_lt_of_mem_ancestors hrl
      · exact h
      · exact absurd hlt hgt.asymm

/-- **Subtyping is transitive.** -/
theorem subtype_trans (hl : l.isSubtype m = true) (hr : m.isSubtype r = true) : l.isSubtype r = true := by
  rw [isSubtype_iff] at *
  rcases hr with rfl | rfl | hr
  · exact .inl rfl
  · exact .inr (.inl (eq_nothing_of_isSubtype (isSubtype_iff.2 hl)))
  · rcases hl with rfl | rfl | hl
    · simp only [ancestors, parent, List.mem_singleton] at hr
      exact .inl hr
    · exact .inr (.inl rfl)
    · exact .inr (.inr (mem_ancestors_trans hl hr))

/-! ## The widest type -/

/-- What is common to the ancestors of some types, in order. -/
theorem mem_common {rest : List TypeName} :
    r ∈ rest.foldl (fun chain u => chain.filter u.ancestors.contains) t.ancestors ↔
      ∀ u ∈ t :: rest, r ∈ u.ancestors := by
  rw [mem_foldl_filter, List.forall_mem_cons]

theorem common_chain (t : TypeName) (rest : List TypeName) :
    (rest.foldl (fun chain u => chain.filter u.ancestors.contains) t.ancestors).Pairwise
      fun l r => r ∈ l.ancestors := by
  suffices h : ∀ chain : List TypeName, (chain.Pairwise fun l r => r ∈ l.ancestors) →
      (rest.foldl (fun chain u => chain.filter u.ancestors.contains) chain).Pairwise
        fun l r => r ∈ l.ancestors from h _ (ancestors_chain t)
  induction rest with
  | nil => exact fun chain h => h
  | cons u rest ih => exact fun chain h => ih _ (h.filter _)

/-- **The widest of some types is above each of them** that is known. -/
theorem isSubtype_widen (ht : t ∈ types) (hknown : t ≠ unknown) : t.isSubtype (widen types) = true := by
  by_cases hnothing : t = nothing
  · exact hnothing ▸ nothing_isSubtype _
  have hmem : t ∈ types.filter fun t => t != nothing && t != unknown :=
    List.mem_filter.2 ⟨ht, by simp [hnothing, hknown]⟩
  unfold widen
  split
  next hnil => rw [hnil] at hmem; cases hmem
  next u rest hcons =>
    rw [hcons] at hmem
    simp only
    cases hcommon : rest.foldl (fun chain u => chain.filter u.ancestors.contains) u.ancestors with
    | nil => exact isSubtype_any t
    | cons c tail =>
        have hc := mem_common.1 (hcommon ▸ List.mem_cons_self)
        exact isSubtype_iff.2 (.inr (.inr (hc t hmem)))

/-- **The widest of some types is below everything that is above them all.** -/
theorem widen_isSubtype_of_forall (h : ∀ t ∈ types, t.isSubtype r = true) :
    (widen types).isSubtype r = true := by
  unfold widen
  split
  next =>
    split
    next hunknown => exact h _ (List.contains_iff_mem.1 hunknown)
    next => exact nothing_isSubtype r
  next u rest hcons =>
    by_cases hany : r = any
    · subst hany
      exact isSubtype_any _
    have hcommon : r ∈ rest.foldl (fun chain u => chain.filter u.ancestors.contains) u.ancestors := by
      refine mem_common.2 fun t ht => ?_
      rw [← hcons, List.mem_filter, Bool.and_eq_true, bne_iff_ne] at ht
      exact ((isSubtype_iff.1 (h t ht.1)).resolve_left hany).resolve_left ht.2.1
    have hchain := common_chain u rest
    simp only
    generalize rest.foldl (fun chain u => chain.filter u.ancestors.contains) u.ancestors = chain at *
    cases chain with
    | nil => cases hcommon
    | cons c tail =>
        rcases List.mem_cons.1 hcommon with rfl | hr
        · exact isSubtype_refl r
        · exact isSubtype_iff.2 (.inr (.inr (List.rel_of_pairwise_cons hchain hr)))

/-- **The widest type is a least upper bound.** -/
theorem widen_isSubtype_iff (hknown : ∀ t ∈ types, t ≠ unknown) :
    (widen types).isSubtype r = true ↔ ∀ t ∈ types, t.isSubtype r = true :=
  ⟨fun h t ht => subtype_trans (isSubtype_widen ht (hknown t ht)) h, widen_isSubtype_of_forall⟩

/-- **The widest type does not depend on order or repetition.** -/
theorem widen_congr {types' : List TypeName} (hknown : ∀ t ∈ types, t ≠ unknown)
    (h : ∀ t, t ∈ types' ↔ t ∈ types) : widen types' = widen types := by
  refine isSubtype_antisymm (widen_isSubtype_of_forall fun t ht => ?_)
    (widen_isSubtype_of_forall fun t ht => ?_)
  · exact isSubtype_widen ((h t).1 ht) (hknown t ((h t).1 ht))
  · exact isSubtype_widen ((h t).2 ht) (hknown t ht)

/-- **The widest of some types is their least upper bound**, and depends only on which types there are. -/
theorem widen_leastUpper (types : List TypeName) (hknown : ∀ t ∈ types, t ≠ unknown) :
    (∀ t ∈ types, t.isSubtype (widen types) = true) ∧
      (∀ r, (∀ t ∈ types, t.isSubtype r = true) → (widen types).isSubtype r = true) ∧
      ∀ types', (∀ t, t ∈ types' ↔ t ∈ types) → widen types' = widen types :=
  ⟨fun t ht => isSubtype_widen ht (hknown t ht), fun _ => widen_isSubtype_of_forall,
    fun _ h => widen_congr hknown h⟩

/-- Integers and complex numbers are widest as numbers, `nothing` among them or not. -/
theorem widen_leastUpper_numbers :
    (∀ t ∈ [integer, nothing, complex, integer], t ≠ unknown) ∧
      widen [integer, nothing, complex, integer] = number ∧
      (∀ t ∈ [integer, nothing, complex, integer], t.isSubtype number = true) ∧
      widen [complex, nothing, integer] = number := by
  have hwiden : widen [integer, nothing, complex, integer] = number := by
    have hinteger : ancestors integer = [integer, rational, real, number, any] := by
      simp [ancestors, parent]
    have hcomplex : ancestors complex = [complex, number, any] := by simp [ancestors, parent]
    simp [widen, hinteger, hcomplex]
  have h := widen_leastUpper [integer, nothing, complex, integer] (by decide)
  rw [hwiden] at h
  exact ⟨by decide, hwiden, h.1, h.2.2 [complex, nothing, integer] (by simp; tauto)⟩

/-! ## Sharper types -/

/-- A type sharpens one that is unknown or above it. -/
def Sharpens (new old : TypeName) : Prop := old = unknown ∨ new.isSubtype old = true

theorem Sharpens.refl (t : TypeName) : t.Sharpens t := .inr (isSubtype_refl t)

theorem sharpens_any (t : TypeName) : t.Sharpens any := .inr (isSubtype_any t)

/-- What is below a type of the tree stays below it when sharpened. -/
theorem Sharpens.isSubtype {new old : TypeName} (h : new.Sharpens old) (hr : unknown.isSubtype r = false)
    (hold : old.isSubtype r = true) : new.isSubtype r = true := by
  rcases h with rfl | h
  · rw [hr] at hold
    cases hold
  · exact subtype_trans h hold

end TypeName

namespace ResultRule

variable {new old : List TypeName}

theorem exists_sharpened {t : TypeName} (h : List.Forall₂ TypeName.Sharpens new old) (ht : t ∈ new) :
    ∃ u ∈ old, t.Sharpens u := by
  obtain ⟨i, hi, rfl⟩ := List.getElem_of_mem ht
  exact ⟨_, List.getElem_mem _, h.get hi (h.length_eq ▸ hi)⟩

/-- Types that are all below one of the tree stay below it when sharpened. -/
theorem all_isSubtype_of_sharpens {r : TypeName} (h : List.Forall₂ TypeName.Sharpens new old)
    (hr : TypeName.unknown.isSubtype r = false) (hold : old.all (·.isSubtype r) = true) :
    new.all (·.isSubtype r) = true := by
  rw [List.all_eq_true] at hold ⊢
  intro t ht
  obtain ⟨u, hu, hsharp⟩ := exists_sharpened h ht
  exact hsharp.isSubtype hr (hold u hu)

theorem unknown_isSubtype_number : TypeName.unknown.isSubtype .number = false := by simp [TypeName.isSubtype]

theorem numericType_of_sharpens (h : List.Forall₂ TypeName.Sharpens new old) :
    (numericType new).isSubtype (numericType old) = true := by
  by_cases hold : old.all (·.isSubtype .number) = true
  · have hnew := all_isSubtype_of_sharpens h unknown_isSubtype_number hold
    rw [numericType, if_pos hnew, numericType, if_pos hold]
    refine TypeName.widen_isSubtype_of_forall fun t ht => ?_
    -- each new type is below an old one, and that one below the widest
    obtain ⟨u, hu, hsharp⟩ := exists_sharpened h ht
    have hknown : u ≠ .unknown := by
      rintro rfl
      have := List.all_eq_true.1 hold _ hu
      rw [unknown_isSubtype_number] at this
      cases this
    exact TypeName.subtype_trans (hsharp.resolve_left hknown) (TypeName.isSubtype_widen hu hknown)
  · rw [numericType.eq_def old, if_neg hold]
    exact numericType_isSubtype new

theorem integerToRational_of_isSubtype {l r : TypeName} (h : l.isSubtype r = true) :
    (integerToRational l).isSubtype (integerToRational r) = true := by
  unfold integerToRational
  split
  next hl =>
    subst hl
    split
    next => exact TypeName.isSubtype_refl _
    next hr =>
      -- what is above the integers, other than they themselves, is above the rationals
      rw [TypeName.isSubtype_iff, TypeName.mem_ancestors_iff] at h
      rw [TypeName.isSubtype_iff]
      rcases h with h | h | h | ⟨p, hp, h⟩
      · exact .inl h
      · cases h
      · exact absurd h hr
      · cases hp
        exact .inr (.inr h)
  next =>
    split
    next hr =>
      subst hr
      exact TypeName.subtype_trans h (by simp [TypeName.isSubtype, TypeName.ancestors, TypeName.parent])
    next => exact h

/-- **Sharper operands have sharper results**, by every rule. -/
theorem apply_sharpens (rule : ResultRule) (h : List.Forall₂ TypeName.Sharpens new old) :
    (rule.apply new).Sharpens (rule.apply old) := by
  cases rule with
  | fixed t => exact .refl t
  | numeric => exact .inr (numericType_of_sharpens h)
  | realOrNumber =>
      rw [apply, apply]
      by_cases hold : old.all (·.isSubtype .real) = true
      · rw [if_pos hold, if_pos (all_isSubtype_of_sharpens h (by simp [TypeName.isSubtype]) hold)]
        exact .refl _
      · rw [if_neg hold]
        split <;> exact .inr (by simp [TypeName.isSubtype, TypeName.ancestors, TypeName.parent])
  | quotient => exact .inr (integerToRational_of_isSubtype (numericType_of_sharpens h))
  | power =>
      rcases h with _ | ⟨hbase, _ | ⟨hexponent, _ | ⟨_, _⟩⟩⟩
      · exact .refl _
      · exact .refl _
      · rw [apply, apply]
        split
        next hnew =>
          split
          next => exact .inr (integerToRational_of_isSubtype (numericType_of_sharpens (.cons hbase .nil)))
          next => exact .inr (integerToRational_isSubtype (numericType_isSubtype _))
        next hnew =>
          rw [if_neg fun hold => hnew (hexponent.isSubtype (by simp [TypeName.isSubtype]) hold)]
          exact .refl _
      · exact .refl _
  | first =>
      cases h with
      | nil => exact .refl _
      | cons hhead _ => exact hhead
  | arity =>
      rw [apply, apply, h.length_eq]
      exact .refl _

end ResultRule

end SymbolicAlgebra
