import SymbolicAlgebra.Proofs.Marking
import SymbolicAlgebra.Proofs.Standard

/-!
# Proofs/TypeChecks — operands checked together and one by one

Operands are checked against types one place after the other (`checkPositions`), unless all of them fit as
they stand; then they are given back as they stand (`checkTypes`).  A check of one operand brings it into
canonical form first, so the short cut gives the same just if the operands are in canonical form already
(`checkTypes_checkPositions`).
-/

namespace SymbolicAlgebra.Kernel

open SymbolicAlgebra.Expr

variable {lazy : String → Bool} {k : Kernel} {ops : List Expr} {types : List TypeName}

/-- Each place of the types checked by itself, with nothing to check where the operands have ended; the
operands beyond them are unexpected. -/
def checkPositions (ops : List Expr) (types : List TypeName) : Action (List Expr) := do
  let checked ← (List.range types.length).mapM fun i => checkType ops[i]? types[i]?
  return checked ++ (ops.drop types.length).map unexpected

/-- Whether there are as many operands as types, and each operand has the type at its place. -/
def allFit (t : DefinitionTable) (ops : List Expr) (types : List TypeName) : Bool :=
  ops.length == types.length && (ops.zip types).all fun (e, type) => (t.typeOf e).isSubtype type

/-! ## One place after the other -/

theorem checkPositions_cons (ops : List Expr) (type : TypeName) (types : List TypeName) :
    checkPositions ops (type :: types) = do
      let e ← checkType ops.head? (some type)
      return e :: (← checkPositions ops.tail types) := by
  have hplaces : (List.range (type :: types).length).mapM (fun i => checkType ops[i]? (type :: types)[i]?) = do
      let e ← checkType ops.head? (some type)
      return e :: (← (List.range types.length).mapM fun i => checkType ops.tail[i]? types[i]?) := by
    rw [List.length_cons, List.range_succ_eq_map, List.mapM_cons, List.mapM_map]
    simp [List.head?_eq_getElem?, List.getElem?_tail, Function.comp_def]
  have hrest : ops.drop (type :: types).length = ops.tail.drop types.length := by
    rw [List.drop_tail, List.length_cons]
  unfold checkPositions
  rw [hplaces, hrest]
  simp

/-- **The recursion over operands and types checks each place by itself.** -/
theorem checkEach_eq_checkPositions (ops : List Expr) (types : List TypeName) :
    checkEach ops types = checkPositions ops types := by
  induction types generalizing ops with
  | nil =>
      unfold checkEach checkPositions
      simp
  | cons type types ih =>
      rw [checkPositions_cons]
      cases ops with
      | nil =>
          unfold checkEach
          rw [ih]
          rfl
      | cons e ops =>
          unfold checkEach
          rw [ih]
          rfl

/-- Operands that do not all fit are checked one by one. -/
theorem run_checkTypes_of_not_allFit (h : allFit k.table ops types = false) :
    (checkTypes ops types).run.run k = (checkPositions ops types).run.run k := by
  rw [← checkEach_eq_checkPositions]
  unfold allFit at h
  unfold checkTypes
  rw [run_bind, show getTable.run.run k = (.ok k.table, k) from rfl]
  simp only [h, Bool.false_eq_true, ↓reduceIte]

/-- Operands that all fit are given back as they stand. -/
theorem run_checkTypes_of_allFit (h : allFit k.table ops types = true) :
    (checkTypes ops types).run.run k = (.ok ops, k) := by
  unfold allFit at h
  unfold checkTypes
  rw [run_bind, show getTable.run.run k = (.ok k.table, k) from rfl]
  simp only [h, ↓reduceIte]
  rfl

/-! ## What a place gives -/

/-- An operand in canonical form that fits passes its check. -/
theorem run_checkType_of_isCanonical {e : Expr} {type : TypeName} (he : e.isCanonical = true)
    (hfit : (k.table.typeOf e).isSubtype type = true) :
    (checkType (some e) (some type)).run.run k = (.ok e, k) := by
  unfold checkType
  simp only
  rw [canonicalize_of_isCanonical he, pure_bind, run_bind, show getTable.run.run k = (.ok k.table, k) from rfl]
  simp only [hfit, Bool.or_true, ↓reduceIte]
  rfl

theorem allFit_cons {e : Expr} {type : TypeName} :
    allFit k.table (e :: ops) (type :: types) = true ↔
      (k.table.typeOf e).isSubtype type = true ∧ allFit k.table ops types = true := by
  simp only [allFit, List.length_cons, List.zip_cons_cons, List.all_cons, Bool.and_eq_true, beq_iff_eq,
    Nat.add_right_cancel_iff]
  tauto

/-- **Operands in canonical form that all fit pass their checks one by one.** -/
theorem run_checkPositions_of_isCanonical (hfit : allFit k.table ops types = true)
    (hops : ∀ e ∈ ops, e.isCanonical = true) :
    (checkPositions ops types).run.run k = (.ok ops, k) := by
  induction types generalizing ops with
  | nil =>
      obtain rfl : ops = [] := by simpa [allFit] using hfit
      rfl
  | cons type types ih =>
      cases ops with
      | nil => cases hfit
      | cons e ops =>
          rw [allFit_cons] at hfit
          rw [List.forall_mem_cons] at hops
          rw [checkPositions_cons, run_bind, List.head?_cons, run_checkType_of_isCanonical hops.1 hfit.1]
          simp only [List.tail_cons]
          rw [run_bind, ih hfit.2 hops.2]
          rfl

/-- **A place gives an expression in canonical form**, whatever was to be checked. -/
theorem yields_checkType_isCanonical (hl : Releases lazy) (hk : WellMarked lazy k) {e : Option Expr}
    (he : ∀ x ∈ e, x.isWellMarked lazy = true) (type : Option TypeName) :
    Yields Anyhow (checkType e type) k fun r k' => WellMarked lazy k' ∧ r.isCanonical = true := by
  unfold checkType
  split
  next => exact Yields.pure ⟨hk, rfl⟩
  next => exact Yields.pure ⟨hk, rfl⟩
  next x t =>
    refine (upholds_canonicalize hl hk (he x rfl)).yields.bind fun r k' hr => ?_
    refine (yields_getTable rfl : Yields Anyhow getTable k' fun t k'' => k'' = k').bind fun t k'' h => ?_
    subst h
    refine Yields.pure ⟨hr.1, ?_⟩
    split
    · exact hr.2.canonical
    · rfl

/-- **Each place gives an expression in canonical form.** -/
theorem yields_checkPositions_isCanonical (hl : Releases lazy) (hk : WellMarked lazy k)
    (hops : ∀ e ∈ ops, e.isWellMarked lazy = true) :
    Yields Anyhow (checkPositions ops types) k fun rs _ =>
      rs.length = max ops.length types.length ∧ ∀ r ∈ rs, r.isCanonical = true := by
  unfold checkPositions
  refine (Yields.mapM (I := WellMarked lazy) (Q := fun _ r => r.isCanonical = true) hk
    fun i _ k' hk' => yields_checkType_isCanonical hl hk' (fun x hx => hops x ?_) _).bind fun rs k' hrs => ?_
  · exact List.mem_of_getElem? hx
  · refine Yields.pure ⟨?_, ?_⟩
    · rw [List.length_append, ← hrs.2.length_eq, List.length_range, List.length_map, List.length_drop]
      omega
    · refine List.forall_mem_append.2 ⟨fun r hr => ?_, fun r hr => ?_⟩
      · obtain ⟨i, hi, rfl⟩ := List.getElem_of_mem hr
        exact hrs.2.get (hrs.2.length_eq ▸ hi) hi
      · obtain ⟨e, -, rfl⟩ := List.mem_map.1 hr
        rfl

/-- **Operands checked together and one by one.**  The two checks of any operands run the same, in any kernel,
if the operands do not all fit as they stand or are all in canonical form.  Operands that all fit are given
back as they stand, while one by one each is brought into canonical form: the results agree in that just if
the operands were in canonical form. -/
theorem checkTypes_checkPositions (k : Kernel) (ops : List Expr) (types : List TypeName) :
    (allFit k.table ops types = false ∨ (∀ e ∈ ops, e.isCanonical = true) →
      (checkTypes ops types).run.run k = (checkPositions ops types).run.run k) ∧
    (allFit k.table ops types = true →
      (checkTypes ops types).run.run k = (.ok ops, k) ∧
      (Releases k.table.holdsOperands → WellMarked k.table.holdsOperands k →
        (∀ e ∈ ops, e.isWellMarked k.table.holdsOperands = true) →
        ∀ rs k', (checkPositions ops types).run.run k = (.ok rs, k') →
          (rs.map isCanonical = ops.map isCanonical ↔ ∀ e ∈ ops, e.isCanonical = true))) := by
  refine ⟨fun h => ?_, fun hfit => ⟨run_checkTypes_of_allFit hfit, fun hl hk hops rs k' hrun => ?_⟩⟩
  · cases hfit : allFit k.table ops types with
    | false => exact run_checkTypes_of_not_allFit hfit
    | true =>
        have hcanonical := h.resolve_left fun hnot => Bool.noConfusion (hnot.symm.trans hfit)
        rw [run_checkTypes_of_allFit hfit, run_checkPositions_of_isCanonical hfit hcanonical]
  · obtain ⟨hlength, hcanonical⟩ := (yields_checkPositions_isCanonical hl hk hops).of_run hrun
    have hsame : ops.length = types.length := by
      unfold allFit at hfit
      exact beq_iff_eq.1 (Bool.and_eq_true_iff.1 hfit).1
    have hmarks : rs.map isCanonical = List.replicate ops.length true :=
      List.eq_replicate_iff.2 ⟨by rw [List.length_map, hlength, hsame, Nat.max_self],
        List.forall_mem_map.2 hcanonical⟩
    rw [hmarks, eq_comm, List.eq_replicate_iff, List.forall_mem_map]
    simp

/-- The operands of a check in the kernel a dialogue starts with. -/
theorem checkTypes_checkPositions_standard :
    (checkTypes [.number (.ofInt 1)] [.number]).run.run standard =
      (checkPositions [.number (.ofInt 1)] [.number]).run.run standard ∧
    ∀ rs k', (checkPositions [.number (.ofInt 1)] [.number]).run.run standard = (.ok rs, k') →
      rs.map isCanonical = [true] := by
  have hagree := checkTypes_checkPositions standard [.number (.ofInt 1)] [.number]
  have hstandard : allFit standard.table [.number (.ofInt 1)] [.number] = true ∧ standard.pool.isEmpty = true ∧
      standard.table.holdsOperands "Sequence" = false ∧ standard.table.holdsOperands "Negate" = false := by
    rw [standard_eq]
    decide +kernel
  obtain ⟨hfit, hempty, hsequence, hnegate⟩ := hstandard
  refine ⟨hagree.1 (.inr (by decide)), fun rs k' hrun => ?_⟩
  exact ((hagree.2 hfit).2 ⟨hsequence, hnegate⟩ (wellMarked_of_isEmpty hempty) (by decide) rs k' hrun).2 (by decide)

/-- A sum that adds a truth value to a number, as it stands. -/
def mixedSum : Action Expr := hold (.list [.name "Add", .int 1, .name "True"])

/-- **A held operand passes unseen**: the sum has the type of numbers as it stands, and is neither canonical nor
found to be invalid, as it is when it is checked by itself. -/
theorem held_operand_passes_unseen : ∃ e k r k', mixedSum.run.run standard = (.ok e, k) ∧
    (checkTypes [e] [.number]).run.run k = (.ok [e], k) ∧
    (checkPositions [e] [.number]).run.run k = (.ok [r], k') ∧
    (e.isCanonical = false ∧ e.isValid = true) ∧ r.isCanonical = true ∧ r.isValid = false := by
  obtain ⟨e, k, hmade, he⟩ := run_of_any_after (x := mixedSum) (k := standard)
    (p := fun e k => !e.isCanonical && e.isValid && allFit k.table [e] [.number] &&
      ((checkType (some e) (some .number)).run.run k).1.toOption.any fun r => r.isCanonical && !r.isValid)
    (by rw [standard_eq]; decide +kernel)
  simp only [Bool.and_eq_true, Bool.not_eq_true'] at he
  obtain ⟨⟨⟨hform, hvalid⟩, hfit⟩, hcheck⟩ := he
  obtain ⟨r, k', hrun, hr⟩ := run_of_any hcheck
  rw [Bool.and_eq_true, Bool.not_eq_true'] at hr
  refine ⟨e, k, r, k', hmade, run_checkTypes_of_allFit hfit, ?_, ⟨hform, hvalid⟩, hr⟩
  rw [checkPositions_cons, run_bind, List.head?_cons, hrun]
  rfl

end SymbolicAlgebra.Kernel
