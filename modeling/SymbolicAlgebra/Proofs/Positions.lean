import SymbolicAlgebra.Proofs.Checking

/-!
# Proofs/Positions — checks leave operands in their places

Operands are counted, taken for numbers, or matched with the parameters of a signature.  Each of the three
checks covers some positions, at the front, and gives a list of operands and errors that is `InPlace`: an
operand in a covered position stays there, or a mismatch that carries it does; behind the operands a missing
one is reported in each position that is required; and an operand in a position that is not covered is
reported where it stands.  So checks that cover the same positions and require as many operands report the
same ones (`operands_inPlace`).
-/

namespace SymbolicAlgebra

/-- Whether a signature has a parameter for the operand in a position. -/
def Signature.Covers (s : Signature) (i : Nat) : Prop :=
  i < s.required.length + s.optional.length ∨ s.rest.isSome = true

namespace Kernel

variable {E : Fault → Prop} {k : Kernel} {t : DefinitionTable} {ops rs : List Expr} {count i : Nat}
  {covered : Nat → Prop}

/-- **What a check makes of operands**, if it requires `count` of them. -/
structure InPlace (t : DefinitionTable) (ops : List Expr) (count : Nat) (covered : Nat → Prop)
    (rs : List Expr) : Prop where
  length : rs.length = max ops.length count
  kept : ∀ i e, ops[i]? = some e → covered i → rs[i]? = some e ∨
    e.isValid = true ∧ ∃ expected, rs[i]? = some (mismatch expected (t.typeOf e) e)
  absent : ∀ i, ops.length ≤ i → i < count → rs[i]? = some missing
  extra : ∀ i e, ops[i]? = some e → ¬covered i → rs[i]? = some (unexpected e)

/-- Whether an operand is reported missing in a position. -/
def IsMissingAt (ops rs : List Expr) (i : Nat) : Prop := ops.length ≤ i ∧ rs[i]? = some missing

/-- Whether the operand in a position is reported as one too many. -/
def IsUnexpectedAt (ops rs : List Expr) (i : Nat) : Prop :=
  ∃ e, ops[i]? = some e ∧ rs[i]? = some (unexpected e)

/-! ## Reports -/

/-- No expression is the report that it is one too many: the report spells it out. -/
theorem unexpected_ne (e : Expr) : unexpected e ≠ e := by
  intro h
  have htext : (unexpected e).text = "(Error unexpected-argument " ++ e.text ++ ")" := rfl
  have hlength := congrArg String.length htext
  rw [h, String.length_append, String.length_append, show ")".length = 1 from rfl] at hlength
  omega

namespace InPlace

theorem isMissingAt_iff (h : InPlace t ops count covered rs) :
    IsMissingAt ops rs i ↔ ops.length ≤ i ∧ i < count := by
  refine and_congr_right fun hi => ⟨fun hmissing => ?_, h.absent i hi⟩
  have hlt := (List.getElem?_eq_some_iff.1 hmissing).1
  rw [h.length] at hlt
  omega

theorem isUnexpectedAt_iff (h : InPlace t ops count covered rs) :
    IsUnexpectedAt ops rs i ↔ i < ops.length ∧ ¬covered i := by
  constructor
  · rintro ⟨e, he, hrs⟩
    refine ⟨(List.getElem?_eq_some_iff.1 he).1, fun hcovered => ?_⟩
    obtain hkept | ⟨-, expected, hkept⟩ := h.kept i e he hcovered
    · exact unexpected_ne e (Option.some.inj (hrs.symm.trans hkept))
    · exact absurd (hrs.symm.trans hkept) (by simp [unexpected, mismatch])
  · rintro ⟨hi, hcovered⟩
    exact ⟨ops[i], List.getElem?_eq_getElem hi, h.extra i _ (List.getElem?_eq_getElem hi) hcovered⟩

/-- Only which positions are covered matters. -/
theorem congr {covered' : Nat → Prop} (h : InPlace t ops count covered rs)
    (hcovered : ∀ i < ops.length, covered' i ↔ covered i) : InPlace t ops count covered' rs where
  length := h.length
  kept i e he hi := h.kept i e he ((hcovered i (List.getElem?_eq_some_iff.1 he).1).1 hi)
  absent := h.absent
  extra i e he hi := h.extra i e he fun h => hi ((hcovered i (List.getElem?_eq_some_iff.1 he).1).2 h)

end InPlace

/-- **Operands one by one, then the missing ones, then the superfluous ones.** -/
theorem inPlace_append (room : Nat) {kept : List Expr} (hcount : count ≤ room)
    (hlength : kept.length = min room ops.length)
    (hkept : ∀ i e, ops[i]? = some e → i < room → kept[i]? = some e ∨
      e.isValid = true ∧ ∃ expected, kept[i]? = some (mismatch expected (t.typeOf e) e)) :
    InPlace t ops count (· < room)
      (kept ++ List.replicate (count - ops.length) missing ++ (ops.drop room).map unexpected) where
  length := by
    simp only [List.length_append, hlength, List.length_replicate, List.length_map, List.length_drop]
    omega
  kept i e he hi := by
    have hlt := (List.getElem?_eq_some_iff.1 he).1
    rw [List.append_assoc, List.getElem?_append_left (by omega)]
    exact hkept i e he hi
  absent i hle hlt := by
    rw [List.append_assoc, List.getElem?_append_right (by omega), List.getElem?_append_left,
      List.getElem?_replicate_of_lt]
    · omega
    · rw [List.length_replicate]
      omega
  extra i e he hi := by
    have hlt := (List.getElem?_eq_some_iff.1 he).1
    rw [show count - ops.length = 0 by omega, List.replicate_zero, List.append_nil,
      List.getElem?_append_right (by omega), List.getElem?_map, List.getElem?_drop,
      show room + (i - kept.length) = i by omega, he, Option.map_some]

/-! ## The three checks -/

theorem inPlace_fit (t : DefinitionTable) (count : Nat) (ops : List Expr) :
    InPlace t ops count (· < count) (fit count ops) :=
  inPlace_append count le_rfl List.length_take fun i e he hi =>
    .inl (by rw [List.getElem?_take_of_lt hi, he])

theorem inPlace_checkedNumbers (t : DefinitionTable) (count : Nat) (ops : List Expr) :
    InPlace t ops count (· < count) (checkedNumbers t count ops) := by
  rw [checkedNumbers, drop_fit, ← List.append_assoc]
  refine inPlace_append count le_rfl (by simp) fun i e he hi => ?_
  rw [List.getElem?_map, List.getElem?_map, List.getElem?_take_of_lt hi, he, Option.map_some,
    Option.map_some]
  unfold checkNumber
  split
  next => exact .inl rfl
  next hvalid =>
    split
    next => exact .inl rfl
    next => exact .inr ⟨by simpa using hvalid, .number, rfl⟩

theorem length_parametersFor (s : Signature) (n : Nat) :
    (parametersFor s n).length = if s.rest.isSome = true then
      max (s.required.length + s.optional.length) n else s.required.length + s.optional.length := by
  unfold parametersFor
  cases s.rest with
  | none => simp
  | some r =>
      simp only [List.length_append, List.length_replicate, Option.isSome_some, ↓reduceIte]
      omega

theorem inPlace_checkedParameters (t : DefinitionTable) (s : Signature) (threadable : Bool)
    (ops : List Expr) :
    InPlace t ops s.required.length s.Covers (checkedParameters t s false threadable ops) := by
  have hroom := length_parametersFor s ops.length
  refine (inPlace_append (parametersFor s ops.length).length ?_ ?_ ?_).congr ?_
  · split at hroom <;> omega
  · simp [Nat.min_comm]
  · intro i e he hi
    obtain ⟨type, htype⟩ : ∃ type, (parametersFor s ops.length)[i]? = some type :=
      ⟨_, List.getElem?_eq_getElem hi⟩
    have hpair : (ops.zip (parametersFor s ops.length))[i]? = some (e, type) :=
      List.getElem?_zip_eq_some.2 ⟨he, htype⟩
    rw [List.getElem?_map, List.getElem?_map, hpair, Option.map_some, Option.map_some]
    cases hvalid : e.isValid with
    | false =>
        refine .inl ?_
        simp [checkParameter, hvalid]
    | true =>
        unfold checkParameter
        simp only
        repeat' split
        all_goals first
          | exact .inl rfl
          | exact .inr ⟨trivial, type, rfl⟩
  · intro i hi
    rw [hroom, Signature.Covers]
    split
    next hrest => simp [hrest, hi]
    next hrest => simp [hrest]

theorem yields_checkArity_strict (hk : k.settings.strict = true) (ops : List Expr) (count : Nat) :
    Yields E (checkArity ops count) k fun rs k' =>
      rs = fit count (Expr.flattenSequence ops) ∧ k' = k := by
  unfold checkArity
  refine Yields.bind (P := fun strict k' => strict = true ∧ k' = k) ⟨hk, rfl⟩ ?_
  rintro _ k ⟨rfl, rfl⟩
  exact Yields.pure ⟨rfl, rfl⟩

/-- Operands that are not spliced stay as they are. -/
theorem flatten_of_unspliced {associative : Option String}
    (hsequence : ∀ e ∈ ops, e.isApplicationOf "Sequence" = false)
    (hnested : ∀ f, associative = some f → ∀ e ∈ ops, e.isApplicationOf f = false) :
    Expr.flatten associative ops = ops := by
  refine Expr.flatten_of_isLeaf fun e he => ?_
  cases e with
  | application f es d c =>
      have hf : f ≠ "Sequence" := by simpa [Expr.isApplicationOf] using hsequence _ he
      cases associative with
      | none => simp [Expr.isLeaf, Expr.isSpliced, hf]
      | some g =>
          have hg : f ≠ g := by simpa [Expr.isApplicationOf] using hnested g rfl _ he
          simp [Expr.isLeaf, Expr.isSpliced, hf, hg.symm]
  | _ => rfl

/-- Nested applications are spliced before the check. -/
theorem checkNumeric_flatten (ops : List Expr) (count : Option Nat) (associative : Option String) :
    checkNumeric ops count associative = checkNumeric (Expr.flatten associative ops) count none := by
  unfold checkNumeric
  rw [Expr.flatten_none_flatten]

/-! ## The main result -/

/-- **Operands stay in their places.**  In a strict kernel, for operands that are no sequences, all three
checks return, and what they return is in place (a check against a signature that accepts everything leaves
the operands as they are); and if a signature has required parameters only, the check against it and the two
checks for as many operands report the same positions. -/
theorem operands_inPlace (hk : k.settings.strict = true)
    (hops : ∀ e ∈ ops, e.isApplicationOf "Sequence" = false) :
    (∀ count, ∃ rs, (checkArity ops count).run.run k = (.ok rs, k) ∧
      InPlace k.table ops count (· < count) rs) ∧
    (∀ count associative, (∀ f, associative = some f → ∀ e ∈ ops, e.isApplicationOf f = false) →
      ∃ rs k', (checkNumeric ops (some count) associative).run.run k = (.ok rs, k') ∧
        InPlace k.table ops count (· < count) rs) ∧
    (∀ s threadable, ∃ o k', (checkSignature ops s false threadable).run.run k = (.ok o, k') ∧
      InPlace k.table ops s.required.length s.Covers (o.getD ops)) ∧
    ∀ (s : Signature) threadable rs₁ rs₂ o k₁ k₂ k₃, s.optional = [] → s.rest = none →
      (checkArity ops s.required.length).run.run k = (.ok rs₁, k₁) →
      (checkNumeric ops (some s.required.length) none).run.run k = (.ok rs₂, k₂) →
      (checkSignature ops s false threadable).run.run k = (.ok o, k₃) → ∀ i,
        (IsMissingAt ops rs₁ i ↔ IsMissingAt ops (o.getD ops) i) ∧
        (IsMissingAt ops rs₂ i ↔ IsMissingAt ops (o.getD ops) i) ∧
        (IsUnexpectedAt ops rs₁ i ↔ IsUnexpectedAt ops (o.getD ops) i) ∧
        (IsUnexpectedAt ops rs₂ i ↔ IsUnexpectedAt ops (o.getD ops) i) := by
  have harity : ∀ count, Yields Never (checkArity ops count) k fun rs k' =>
      k' = k ∧ InPlace k.table ops count (· < count) rs := fun count =>
    (yields_checkArity_strict hk ops count).mono fun rs k' ⟨hrs, hk'⟩ => by
      rw [Expr.flattenSequence, flatten_of_unspliced hops fun f hf => by cases hf] at hrs
      exact ⟨hk', hrs ▸ inPlace_fit k.table count ops⟩
  have hnumeric : ∀ count associative,
      (∀ f, associative = some f → ∀ e ∈ ops, e.isApplicationOf f = false) →
      Yields Never (checkNumeric ops (some count) associative) k fun rs _ =>
        InPlace k.table ops count (· < count) rs := fun count associative hnested => by
    rw [checkNumeric_flatten, flatten_of_unspliced hops hnested]
    refine (yields_checkNumeric_strict hk ops (some count)).mono fun rs _ hrs => ?_
    rw [flatten_of_unspliced hops fun f hf => by cases hf] at hrs
    exact hrs ▸ inPlace_checkedNumbers k.table count ops
  have hsignature : ∀ s threadable, Yields Never (checkSignature ops s false threadable) k fun o _ =>
      InPlace k.table ops s.required.length s.Covers (o.getD ops) := fun s threadable =>
    (yields_checkSignature_strict hk ops s threadable).mono fun o _ ho =>
      ho ▸ inPlace_checkedParameters k.table s threadable ops
  refine ⟨fun count => ?_, fun count associative hnested => (hnumeric count associative hnested).exists_run,
    fun s threadable => (hsignature s threadable).exists_run, ?_⟩
  · obtain ⟨rs, k', hrun, rfl, hrs⟩ := (harity count).exists_run
    exact ⟨rs, hrun, hrs⟩
  · intro s threadable rs₁ rs₂ o k₁ k₂ k₃ hoptional hrest h₁ h₂ h₃ i
    obtain ⟨-, hrs₁⟩ := (harity s.required.length).of_run h₁
    have hrs₂ := (hnumeric s.required.length none fun f hf => by cases hf).of_run h₂
    have ho : InPlace k.table ops s.required.length (· < s.required.length) (o.getD ops) :=
      ((hsignature s threadable).of_run h₃).congr fun i _ => by
        simp [Signature.Covers, hoptional, hrest]
    rw [hrs₁.isMissingAt_iff, hrs₂.isMissingAt_iff, ho.isMissingAt_iff, hrs₁.isUnexpectedAt_iff,
      hrs₂.isUnexpectedAt_iff, ho.isUnexpectedAt_iff]
    exact ⟨.rfl, .rfl, .rfl, .rfl⟩

/-- Of `1`, `True` and `2` the second is no number, and the third is one too many for two parameters. -/
theorem operands_inPlace_three :
    let ops := [.number .one, .symbol "True" (standard.table.number? "True") true, .number (.ofInt 2)]
    (standard.settings.strict = true ∧ ∀ e ∈ ops, e.isApplicationOf "Sequence" = false) ∧
      (∃ rs k', (checkNumeric ops (some 2) none).run.run standard = (.ok rs, k') ∧
        InPlace standard.table ops 2 (· < 2) rs) ∧
      ∃ o k', (checkSignature ops ⟨[.number, .number], [], none, .fixed .number⟩ false false).run.run
        standard = (.ok o, k') ∧ IsUnexpectedAt ops (o.getD ops) 2 := by
  intro ops
  have hops : ∀ e ∈ ops, e.isApplicationOf "Sequence" = false := by
    simp [ops, Expr.isApplicationOf]
  obtain ⟨-, hnumeric, hsignature, -⟩ := operands_inPlace standard_isStrict hops
  obtain ⟨o, k', hrun, ho⟩ := hsignature ⟨[.number, .number], [], none, .fixed .number⟩ false
  refine ⟨⟨standard_isStrict, hops⟩, hnumeric 2 none (fun f hf => by cases hf), o, k', hrun, ?_⟩
  exact ho.isUnexpectedAt_iff.2 ⟨by decide, by simp [Signature.Covers]⟩

end Kernel

end SymbolicAlgebra
