import Mathlib.Data.List.Basic
import SymbolicAlgebra.Proofs.Structure

/-!
# Proofs/Flattening — flat operands are the leaves, in order

The operands of sequences and of nested applications of an associative operator are spliced in one
traversal (`Expr.flatten`).  They can also be spliced in two phases, which stop early: first the
sequences, at every depth, and, if the operator is left among the operands, its applications, each in
two phases again.  Both ways are equal (`Expr.flattenInPhases_eq`): once the sequences are gone, what is
left of them is inside of applications.

A path into a list of operands has a number for each application on the way.  Spliced applications lead
to leaves (`Expr.LeafAt`), and the places of these, in the order of their paths, are those of a flat list
(`Expr.mem_placesFrom_iff`, `Expr.pairwise_placesFrom`, `Expr.map_snd_placesFrom`).
-/

namespace SymbolicAlgebra

namespace Expr

variable {a : Option String}

/-! ## Two phases -/

theorem sizeOf_operands_le (e : Expr) : sizeOf e.operands ≤ sizeOf e := by
  cases e with
  | application f ops d c =>
      simp only [operands, application.sizeOf_spec]
      omega
  | _ => simp [operands, Nat.add_assoc]

theorem sizeOf_operands_lt {e : Expr} {ops : List Expr} (h : e ∈ ops) :
    sizeOf e.operands < sizeOf ops :=
  (sizeOf_operands_le e).trans_lt (List.sizeOf_lt_of_mem h)

/-- Splices sequences, if there is one. -/
def spliceSequences (ops : List Expr) : List Expr :=
  if ops.any (·.operator == "Sequence") then
    ops.attach.flatMap fun ⟨e, _⟩ =>
      if e.operator == "Sequence" then spliceSequences e.operands else [e]
  else ops
termination_by sizeOf ops
decreasing_by exact sizeOf_operands_lt ‹_›

theorem leaves_none (e : Expr) :
    leaves none e = if e.operator == "Sequence" then flatten none e.operands else [e] := by
  cases e with
  | application f ops d c => rw [leaves, isSpliced]; simp [operator, operands]
  | _ => rfl

theorem isLeaf_none_iff {e : Expr} : e.isLeaf none = true ↔ e.operator ≠ "Sequence" := by
  cases e <;> simp [isLeaf, isSpliced, operator]

theorem flatMap_attach {α β : Type} (xs : List α) (F : α → List β) :
    (xs.attach.flatMap fun x => F x.1) = xs.flatMap F := by
  rw [← List.flatMap_map, List.attach_map_subtype_val]

/-- **The first phase** is the traversal for sequences only. -/
theorem spliceSequences_eq (ops : List Expr) : spliceSequences ops = flattenSequence ops := by
  induction ops using spliceSequences.induct with
  | case1 ops hany ih =>
      rw [spliceSequences, if_pos hany, flattenSequence, flatten_eq_flatMap]
      refine (List.flatMap_congr fun ⟨e, he⟩ _ => ?_).trans (flatMap_attach ops (leaves none))
      rw [leaves_none]
      exact if_congr Iff.rfl (ih e he) rfl
  | case2 ops hany =>
      rw [spliceSequences, if_neg hany]
      refine (flatten_of_isLeaf fun e he => isLeaf_none_iff.2 fun hseq => hany ?_).symm
      exact List.any_eq_true.2 ⟨e, he, beq_iff_eq.2 hseq⟩

mutual

theorem sizeOf_operands_le_of_mem_leaves : ∀ {e x : Expr}, x ∈ leaves a e →
    sizeOf x.operands ≤ sizeOf e
  | number _, x, hx => by
      rw [List.mem_singleton.1 hx]
      exact sizeOf_operands_le _
  | symbol _ _ _, x, hx => by
      rw [List.mem_singleton.1 hx]
      exact sizeOf_operands_le _
  | error _ _ _, x, hx => by
      rw [List.mem_singleton.1 hx]
      exact sizeOf_operands_le _
  | application f ops d c, x, hx => by
      rw [leaves] at hx
      split at hx
      next =>
        have hlt := sizeOf_operands_lt_of_mem_flatten hx
        rw [application.sizeOf_spec]
        omega
      next =>
        rw [List.mem_singleton.1 hx]
        exact sizeOf_operands_le _

theorem sizeOf_operands_lt_of_mem_flatten : ∀ {es : List Expr} {x : Expr}, x ∈ flatten a es →
    sizeOf x.operands < sizeOf es
  | e :: rest, x, hx => by
      rw [List.cons.sizeOf_spec]
      rw [flatten, List.mem_append] at hx
      rcases hx with hx | hx
      · have hle := sizeOf_operands_le_of_mem_leaves hx
        omega
      · have hlt := sizeOf_operands_lt_of_mem_flatten hx
        omega

end

/-- Splices sequences, then applications of an associative operator, if there is one.  A symbol has an
operator name too, that of its kind, but is no application. -/
def flattenInPhases (associative : Option String) (ops : List Expr) : List Expr :=
  match associative with
  | none => spliceSequences ops
  | some f =>
      if (spliceSequences ops).any (·.operator == f) then
        (spliceSequences ops).attach.flatMap fun ⟨e, _⟩ =>
          if e.operator == f && e.isApplication then flattenInPhases (some f) e.operands else [e]
      else spliceSequences ops
termination_by sizeOf ops
decreasing_by
  rename_i he _
  rw [spliceSequences_eq] at he
  exact sizeOf_operands_lt_of_mem_flatten he

theorem flatten_append (xs ys : List Expr) : flatten a (xs ++ ys) = flatten a xs ++ flatten a ys := by
  rw [flatten_eq_flatMap, flatten_eq_flatMap, flatten_eq_flatMap, List.flatMap_append]

mutual

theorem flatten_leaves_none (a : Option String) : ∀ e : Expr,
    flatten a (leaves none e) = leaves a e
  | number _ => rfl
  | symbol _ _ _ => rfl
  | error _ _ _ => rfl
  | application f ops d c => by
      rw [leaves]
      split
      next hf =>
        have hspliced : isSpliced a f = true := by
          rw [isSpliced, Bool.or_eq_true]
          simpa [isSpliced] using Or.inl hf
        rw [flatten_flatten_none a ops, leaves, if_pos hspliced]
      next => rw [flatten, flatten, List.append_nil]

/-- Sequences may be spliced first. -/
theorem flatten_flatten_none (a : Option String) : ∀ es : List Expr,
    flatten a (flatten none es) = flatten a es
  | [] => rfl
  | e :: rest => by
      rw [flatten, flatten_append, flatten_leaves_none a e, flatten_flatten_none a rest, flatten]

end

theorem leaves_some_of_isLeaf {f : String} {e : Expr} (h : e.isLeaf none = true) :
    leaves (some f) e =
      if e.operator == f && e.isApplication then flatten (some f) e.operands else [e] := by
  cases e with
  | application g ops d c =>
      have hg : g ≠ "Sequence" := isLeaf_none_iff.1 h
      rw [leaves]
      simp only [operator, isApplication, operands, Bool.and_true, beq_iff_eq, isSpliced_some, hg,
        false_or]
  | _ => simp [leaves, isApplication]

/-- **Splicing in two phases is the one traversal.** -/
theorem flattenInPhases_eq (a : Option String) (ops : List Expr) :
    flattenInPhases a ops = flatten a ops := by
  induction a, ops using flattenInPhases.induct with
  | case1 ops => rw [flattenInPhases, spliceSequences_eq, flattenSequence]
  | case2 ops f hany ih =>
      rw [flattenInPhases, if_pos hany, ← flatten_flatten_none, flatten_eq_flatMap, ← flattenSequence,
        ← spliceSequences_eq]
      refine (List.flatMap_congr fun ⟨e, he⟩ _ => ?_).trans (flatMap_attach _ (leaves (some f)))
      have hleaf : e.isLeaf none = true := by
        rw [spliceSequences_eq] at he
        exact isLeaf_of_mem_flatten he
      rw [leaves_some_of_isLeaf hleaf]
      exact if_congr Iff.rfl (ih e he) rfl
  | case3 ops f hany =>
      rw [flattenInPhases, if_neg hany, ← flatten_flatten_none, spliceSequences_eq, flattenSequence]
      rw [spliceSequences_eq] at hany
      refine (flatten_of_isLeaf fun e he => ?_).symm
      have hne : ¬(e.operator == f && e.isApplication) = true := fun hf =>
        hany (List.any_eq_true.2 ⟨e, he, (Bool.and_eq_true _ _ ▸ hf).1⟩)
      have hleaf := isLeaf_of_mem_flatten he
      cases e with
      | application g inner d c =>
          rw [isLeaf, Bool.not_eq_true', ← Bool.not_eq_true, isSpliced_some, not_or]
          exact ⟨isLeaf_none_iff.1 hleaf, fun hg => hne (by simp [operator, isApplication, hg])⟩
      | _ => rfl

/-! ## Places -/

/-- The path leads through spliced applications to the expression. -/
inductive Reaches (a : Option String) : List Expr → List Nat → Expr → Prop
  | last {ops i e} (hi : ops[i]? = some e) : Reaches a ops [i] e
  | step {ops i f inner d c path e} (hi : ops[i]? = some (application f inner d c))
      (hf : isSpliced a f = true) (h : Reaches a inner path e) : Reaches a ops (i :: path) e

/-- The path leads to an expression that is not spliced itself. -/
structure LeafAt (a : Option String) (ops : List Expr) (path : List Nat) (e : Expr) : Prop where
  reached : Reaches a ops path e
  leaf : e.isLeaf a = true

mutual

/-- The leaves of an operand, with the paths to them. -/
def placesBelow (a : Option String) : Expr → List (List Nat × Expr)
  | application f ops d c => if isSpliced a f then placesFrom a 0 ops else [([], application f ops d c)]
  | e => [([], e)]

/-- The leaves of operands, with the paths to them; the operands are numbered from `i`. -/
def placesFrom (a : Option String) (i : Nat) : List Expr → List (List Nat × Expr)
  | [] => []
  | e :: rest => (placesBelow a e).map (Prod.map (i :: ·) id) ++ placesFrom a (i + 1) rest

end

theorem placesBelow_of_isLeaf {e : Expr} (h : e.isLeaf a = true) : placesBelow a e = [([], e)] := by
  cases e with
  | application f ops d c =>
      have hf : ¬isSpliced a f = true := by simpa [isLeaf] using h
      rw [placesBelow, if_neg hf]
  | _ => rfl

mutual

theorem map_snd_placesBelow : ∀ e : Expr, (placesBelow a e).map Prod.snd = leaves a e
  | number _ => rfl
  | symbol _ _ _ => rfl
  | error _ _ _ => rfl
  | application f ops d c => by
      rw [placesBelow, leaves]
      split
      · exact map_snd_placesFrom 0 ops
      · rfl

/-- **A flat list has what is at the places.** -/
theorem map_snd_placesFrom (i : Nat) : ∀ es : List Expr,
    (placesFrom a i es).map Prod.snd = flatten a es
  | [] => rfl
  | e :: rest => by
      rw [placesFrom, flatten, List.map_append, List.map_map, map_snd_placesFrom (i + 1) rest,
        ← map_snd_placesBelow e]
      rfl

end

theorem mem_placesFrom_cons {e : Expr} {rest : List Expr} {i : Nat} {path : List Nat} {x : Expr} :
    (path, x) ∈ placesFrom a i (e :: rest) ↔
      (∃ tail, path = i :: tail ∧ (tail, x) ∈ placesBelow a e) ∨
        (path, x) ∈ placesFrom a (i + 1) rest := by
  rw [placesFrom, List.mem_append, List.mem_map]
  refine or_congr_left ⟨?_, ?_⟩
  · rintro ⟨⟨tail, y⟩, hmem, heq⟩
    cases heq
    exact ⟨tail, rfl, hmem⟩
  · rintro ⟨tail, rfl, hmem⟩
    exact ⟨(tail, x), hmem, rfl⟩

mutual

theorem leafAt_of_mem_placesBelow {ops : List Expr} {i : Nat} {path : List Nat} {x : Expr} :
    ∀ {e : Expr}, ops[i]? = some e → (path, x) ∈ placesBelow a e → LeafAt a ops (i :: path) x
  | number _, hi, h => by
      cases List.mem_singleton.1 h
      exact ⟨.last hi, rfl⟩
  | symbol _ _ _, hi, h => by
      cases List.mem_singleton.1 h
      exact ⟨.last hi, rfl⟩
  | error _ _ _, hi, h => by
      cases List.mem_singleton.1 h
      exact ⟨.last hi, rfl⟩
  | application f inner d c, hi, h => by
      rw [placesBelow] at h
      split at h
      next hf =>
        have hinner := leafAt_of_mem_placesFrom (List.drop_zero (l := inner)) h
        exact ⟨.step hi hf hinner.reached, hinner.leaf⟩
      next hf =>
        cases List.mem_singleton.1 h
        exact ⟨.last hi, by simpa [isLeaf] using hf⟩

theorem leafAt_of_mem_placesFrom {ops : List Expr} {i : Nat} {path : List Nat} {x : Expr} :
    ∀ {es : List Expr}, ops.drop i = es → (path, x) ∈ placesFrom a i es → LeafAt a ops path x
  | e :: rest, hdrop, h => by
      have hi : ops[i]? = some e := by rw [← List.head?_drop, hdrop, List.head?_cons]
      have hrest : ops.drop (i + 1) = rest := by rw [← List.tail_drop, hdrop, List.tail_cons]
      obtain ⟨tail, rfl, hbelow⟩ | htail := mem_placesFrom_cons.1 h
      · exact leafAt_of_mem_placesBelow hi hbelow
      · exact leafAt_of_mem_placesFrom hrest htail

end

theorem mem_placesFrom_of_getElem? {e x : Expr} {path : List Nat} (h : (path, x) ∈ placesBelow a e) :
    ∀ {es : List Expr} {i j : Nat}, es[j]? = some e → ((i + j) :: path, x) ∈ placesFrom a i es
  | y :: rest, i, 0, hj => by
      cases hj
      exact mem_placesFrom_cons.2 (.inl ⟨path, rfl, h⟩)
  | y :: rest, i, j + 1, hj => by
      rw [Nat.add_comm j, ← Nat.add_assoc]
      exact mem_placesFrom_cons.2 (.inr (mem_placesFrom_of_getElem? h hj))

theorem LeafAt.mem_placesFrom {ops : List Expr} {path : List Nat} {e : Expr} (h : LeafAt a ops path e) :
    (path, e) ∈ placesFrom a 0 ops := by
  obtain ⟨hreached, hleaf⟩ := h
  induction hreached with
  | @last ops i e hi =>
      have hbelow : ([], e) ∈ placesBelow a e := by
        rw [placesBelow_of_isLeaf hleaf]
        exact List.mem_singleton_self _
      simpa using mem_placesFrom_of_getElem? (i := 0) hbelow hi
  | @step ops i f inner d c path e hi hf _ ih =>
      have hbelow : (path, e) ∈ placesBelow a (application f inner d c) := by
        rw [placesBelow, if_pos hf]
        exact ih hleaf
      simpa using mem_placesFrom_of_getElem? (i := 0) hbelow hi

/-- **The places are those of the leaves.** -/
theorem mem_placesFrom_iff {ops : List Expr} {path : List Nat} {e : Expr} :
    (path, e) ∈ placesFrom a 0 ops ↔ LeafAt a ops path e :=
  ⟨leafAt_of_mem_placesFrom List.drop_zero, LeafAt.mem_placesFrom⟩

theorem le_head_of_mem_placesFrom {place : List Nat × Expr} : ∀ {es : List Expr} {i : Nat},
    place ∈ placesFrom a i es → ∃ j tail, place.1 = j :: tail ∧ i ≤ j
  | e :: rest, i, h => by
      obtain ⟨tail, hpath, -⟩ | h := mem_placesFrom_cons.1 h
      · exact ⟨i, tail, hpath, le_rfl⟩
      · obtain ⟨j, tail, hpath, hj⟩ := le_head_of_mem_placesFrom h
        exact ⟨j, tail, hpath, Nat.le_of_succ_le hj⟩

mutual

theorem pairwise_placesBelow : ∀ e : Expr, (placesBelow a e).Pairwise fun p q => p.1 < q.1
  | number _ => List.pairwise_singleton _ _
  | symbol _ _ _ => List.pairwise_singleton _ _
  | error _ _ _ => List.pairwise_singleton _ _
  | application f ops d c => by
      rw [placesBelow]
      split
      · exact pairwise_placesFrom 0 ops
      · exact List.pairwise_singleton _ _

/-- **The places are in the order of their paths**, hence all different. -/
theorem pairwise_placesFrom (i : Nat) : ∀ es : List Expr,
    (placesFrom a i es).Pairwise fun p q => p.1 < q.1
  | [] => List.Pairwise.nil
  | e :: rest => by
      rw [placesFrom, List.pairwise_append]
      refine ⟨List.pairwise_map.2 ((pairwise_placesBelow e).imp fun h => ?_),
        pairwise_placesFrom (i + 1) rest, fun p hp q hq => ?_⟩
      · exact List.cons_lt_cons_iff.2 (.inr ⟨rfl, h⟩)
      · obtain ⟨place, -, rfl⟩ := List.mem_map.1 hp
        obtain ⟨j, tail, hq, hj⟩ := le_head_of_mem_placesFrom hq
        rw [hq]
        exact List.cons_lt_cons_iff.2 (.inl hj)

end

/-! ## In order -/

theorem isApplicationOf_of_isLeaf {f : String} {e : Expr} (h : e.isLeaf (some f) = true) :
    e.isApplicationOf "Sequence" = false ∧ e.isApplicationOf f = false := by
  cases e with
  | application g ops d c =>
      rw [isLeaf, Bool.not_eq_true', ← Bool.not_eq_true, isSpliced_some, not_or] at h
      exact ⟨beq_false_of_ne h.1, beq_false_of_ne h.2⟩
  | _ => exact ⟨rfl, rfl⟩

/-- **A flat list has the leaves of the operands in order**, each of them once: the places of all leaves,
in the lexicographic order of their paths, have what is in the list.  So has splicing in two phases. -/
theorem flatten_inOrder (f : String) (ops : List Expr) :
    flattenInPhases (some f) ops = flatten (some f) ops ∧
      (∃ places : List (List Nat × Expr), (places.Pairwise fun p q => p.1 < q.1) ∧
        (∀ path e, (path, e) ∈ places ↔ LeafAt (some f) ops path e) ∧
        places.map Prod.snd = flatten (some f) ops) ∧
      (∀ e ∈ flatten (some f) ops,
        e.isApplicationOf "Sequence" = false ∧ e.isApplicationOf f = false) ∧
      flatten (some f) (flatten (some f) ops) = flatten (some f) ops ∧
      ∀ more, flatten (some f) (ops ++ more) = flatten (some f) ops ++ flatten (some f) more := by
  refine ⟨flattenInPhases_eq _ ops, ⟨placesFrom (some f) 0 ops, pairwise_placesFrom 0 ops,
    fun _ _ => mem_placesFrom_iff, map_snd_placesFrom 0 ops⟩, fun e he => ?_,
    flatten_of_isLeaf fun e => isLeaf_of_mem_flatten, flatten_append ops⟩
  exact isApplicationOf_of_isLeaf (isLeaf_of_mem_flatten he)

end Expr

end SymbolicAlgebra
